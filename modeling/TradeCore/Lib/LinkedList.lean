import Mathlib
/-!
# Singly linked lists in a memory

`Path next x is y`: following `next` from `x` runs through exactly the cells `is` and arrives at `y`.
With `y` the null link it is a whole list with head link `x`.
-/

namespace LinkedList

variable {ι : Type*}

def Path (next : ι → ι) : ι → List ι → ι → Prop
  | x, [], y => x = y
  | x, i :: is, y => x = i ∧ Path next (next i) is y

/-- The cells of a list that is cut at one of them. -/
theorem mem_middle {is js : List ι} {i j : ι} : j ∈ is ++ i :: js ↔ j = i ∨ j ∈ is ++ js := by
  rw [List.perm_middle.mem_iff, List.mem_cons]

variable {next next' : ι → ι}

@[simp] theorem path_nil {x y : ι} : Path next x [] y ↔ x = y := Iff.rfl

@[simp] theorem path_cons {x y i : ι} {is : List ι} : Path next x (i :: is) y ↔ x = i ∧ Path next (next i) is y := Iff.rfl

/-- A memory that agrees on the cells of the path holds the same path. -/
theorem Path.congr : ∀ {is : List ι} {x y : ι}, Path next x is y → (∀ i ∈ is, next' i = next i) → Path next' x is y
  | [], _, _, h, _ => h
  | i :: is, x, y, ⟨hx, h⟩, hag => by
    refine ⟨hx, ?_⟩
    rw [hag i List.mem_cons_self]
    exact h.congr fun j hj => hag j (List.mem_cons_of_mem i hj)

theorem path_append : ∀ {is js : List ι} {x y : ι},
    Path next x (is ++ js) y ↔ ∃ m, Path next x is m ∧ Path next m js y
  | [], js, x, y => by simp
  | i :: is, js, x, y => by
    simp only [List.cons_append, path_cons, path_append]
    constructor
    · rintro ⟨hx, m, h1, h2⟩
      exact ⟨m, ⟨hx, h1⟩, h2⟩
    · rintro ⟨m, ⟨hx, h1⟩, h2⟩
      exact ⟨hx, m, h1, h2⟩

/-- The last cell of a path links to its end. -/
theorem path_concat {is : List ι} {x y i : ι} : Path next x (is ++ [i]) y ↔ Path next x is i ∧ next i = y := by
  rw [path_append]
  constructor
  · rintro ⟨m, h1, rfl, h2⟩
    exact ⟨h1, h2⟩
  · rintro ⟨h1, h2⟩
    exact ⟨i, h1, rfl, h2⟩

/-- The head link names the first cell, or the end. -/
theorem Path.head_eq {is : List ι} {x y : ι} (h : Path next x is y) : x = is.head?.getD y := by
  cases is with
  | nil => exact h
  | cons i is => exact h.1

/-- What the links behind a cell run through. -/
theorem Path.after {is js : List ι} {x y i : ι} (h : Path next x (is ++ i :: js) y) : Path next (next i) js y := by
  obtain ⟨m, -, -, h⟩ := path_append.1 h
  exact h

/-- **Appending** cell `j` behind the last cell `i`. -/
theorem Path.append_cell {is : List ι} {x null i j : ι} (h : Path next x (is ++ [i]) null)
    (hag : ∀ k ∈ is, next' k = next k) (hnew : next' i = j) (hnull : next' j = null) :
    Path next' x (is ++ [i, j]) null := by
  obtain ⟨h1, -⟩ := path_concat.1 h
  have h2 : Path next' x (is ++ [i]) j := path_concat.2 ⟨h1.congr hag, hnew⟩
  have e : is ++ [i, j] = (is ++ [i]) ++ [j] := by simp
  rw [e]
  exact path_concat.2 ⟨h2, hnull⟩

/-- **Unlinking** cell `j`: the cell `i` before it takes over its link. -/
theorem Path.unlink {is js : List ι} {x null i j : ι} (h : Path next x (is ++ i :: j :: js) null)
    (his : ∀ k ∈ is, next' k = next k) (hi : next' i = next j) (hjs : ∀ k ∈ js, next' k = next k) :
    Path next' x (is ++ i :: js) null := by
  obtain ⟨m, h1, rfl, -, h2⟩ := path_append.1 h
  refine path_append.2 ⟨m, h1.congr his, rfl, ?_⟩
  rw [hi]
  exact h2.congr hjs

/-- Two paths from one link to a common end that neither visits are the same. -/
theorem Path.unique {null : ι} : ∀ {is js : List ι} {x : ι}, Path next x is null → Path next x js null →
    null ∉ is → null ∉ js → is = js
  | [], [], _, _, _, _, _ => rfl
  | [], j :: js, x, h, h', _, hj => by
    obtain rfl : x = null := h
    exact absurd (h'.1 ▸ List.mem_cons_self) hj
  | i :: is, [], x, h, h', hi, _ => by
    obtain rfl : x = null := h'
    exact absurd (h.1 ▸ List.mem_cons_self) hi
  | i :: is, j :: js, x, ⟨e, h⟩, ⟨e', h'⟩, hi, hj => by
    subst e
    subst e'
    rw [h.unique h' (fun e => hi (List.mem_cons_of_mem _ e)) (fun e => hj (List.mem_cons_of_mem _ e))]

/-- A path to the null link has no cell twice. -/
theorem Path.nodup {null : ι} : ∀ {is : List ι} {x : ι}, Path next x is null → null ∉ is → is.Nodup
  | [], _, _, _ => List.nodup_nil
  | i :: is, x, ⟨_, h⟩, hnull => by
    rw [List.mem_cons, not_or] at hnull
    refine List.nodup_cons.2 ⟨fun hi => ?_, h.nodup hnull.2⟩
    -- behind a second visit the list would be shorter than itself
    obtain ⟨js, ks, rfl⟩ := List.append_of_mem hi
    have hnk : null ∉ ks := fun hk => hnull.2 (by simp [hk])
    have hlen := congrArg List.length (h.unique h.after hnull.2 hnk)
    simp only [List.length_append, List.length_cons] at hlen
    omega

end LinkedList
