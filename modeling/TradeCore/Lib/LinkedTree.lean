import TradeCore.Lib.AvlTree
/-!
# Binary trees linked through a memory

Cells named by `ι` carry left, right and parent links and a stored height. `Linked cell null m t x p`
says that the structure under link `x` is exactly the tree `t` of cell names: every cell is a `cell`,
every link leads to the root of the matching subtree (`null` for an empty one), every parent link names
the cell above (`p` at the root), and every stored height is the height of the subtree.
-/

namespace Avl

open Avl.BinTree

/-- The links and heights of a memory, cell by cell. -/
structure Links (ι : Type*) where
  left : ι → ι
  right : ι → ι
  parent : ι → ι
  height : ι → ℤ

namespace Links

variable {ι : Type*} (cell : ι → Prop) (null : ι)

def Linked (m : Links ι) : BinTree ι → ι → ι → Prop
  | nil, x, _ => x = null
  | node l i r, x, p =>
    x = i ∧ cell i ∧ m.parent i = p ∧ m.height i = (node l i r).height ∧
      Linked m l (m.left i) i ∧ Linked m r (m.right i) i

variable {cell null} {m m' : Links ι}

/-- The memories agree on cell `j`, its parent link apart. -/
def SameDown (m m' : Links ι) (j : ι) : Prop :=
  m'.left j = m.left j ∧ m'.right j = m.right j ∧ m'.height j = m.height j

theorem Linked.cells : ∀ {t : BinTree ι} {x p : ι}, Linked cell null m t x p → ∀ i ∈ t.toList, cell i
  | nil, _, _, _ => by simp
  | node l i r, _, _, ⟨_, hi, _, _, hl, hr⟩ => by
    intro j hj
    simp only [toList_node, List.mem_append, List.mem_cons] at hj
    rcases hj with hj | rfl | hj
    · exact hl.cells j hj
    · exact hi
    · exact hr.cells j hj

/-- The root link of a non-empty tree is its root. -/
theorem Linked.root_mem {t : BinTree ι} {x p : ι} (h : Linked cell null m t x p) (ht : t ≠ nil) :
    x ∈ t.toList := by
  match t, h with
  | nil, _ => exact absurd rfl ht
  | node l i r, h => simp [h.1]

theorem Linked.nil_iff (hnull : ¬ cell null) {t : BinTree ι} {x p : ι} (h : Linked cell null m t x p) :
    t = nil ↔ x = null := by
  match t, h with
  | nil, h => exact ⟨fun _ => h, fun _ => rfl⟩
  | node l i r, h =>
    refine ⟨nofun, fun e => ?_⟩
    exact absurd (e ▸ h.1 ▸ h.2.1) hnull

/-- **Frame with a new parent.** A memory that agrees with `m` on the cells of the tree, except that
the root has parent `p'`, holds the same tree under parent `p'`. -/
theorem Linked.move : ∀ {t : BinTree ι} {x p p' : ι}, Linked cell null m t x p → t.toList.Nodup →
    (∀ j ∈ t.toList, SameDown m m' j) → (∀ j ∈ t.toList, j ≠ x → m'.parent j = m.parent j) →
    (t ≠ nil → m'.parent x = p') → Linked cell null m' t x p'
  | nil, _, _, _, h, _, _, _, _ => h
  | node l i r, x, p, p', ⟨hx, hi, hp, hh, hl, hr⟩, hnd, hd, hpar, hp' => by
    subst hx
    simp only [toList_node, List.nodup_append, List.nodup_cons, List.mem_cons, forall_eq_or_imp] at hnd
    obtain ⟨hndl, ⟨hir, hndr⟩, hdis⟩ := hnd
    simp only [toList_node, List.mem_append, List.mem_cons] at hd hpar
    obtain ⟨e1, e2, e3⟩ := hd x (Or.inr (Or.inl rfl))
    have hxl : ∀ j ∈ l.toList, j ≠ x := fun j hj => (hdis j hj).1
    have hxr : ∀ j ∈ r.toList, j ≠ x := fun j hj e => hir (e ▸ hj)
    refine ⟨rfl, hi, hp' (by simp), by rw [e3, hh], ?_, ?_⟩
    · rw [e1]
      refine hl.move hndl (fun j hj => hd j (Or.inl hj)) (fun j hj _ => hpar j (Or.inl hj) (hxl j hj)) ?_
      intro hne
      match l, hl with
      | node l' j r', hl =>
        have hj : m.left x ∈ (node l' j r').toList := hl.root_mem hne
        rw [hpar _ (Or.inl hj) (hxl _ hj), hl.1]
        exact hl.2.2.1
    · rw [e2]
      refine hr.move hndr (fun j hj => hd j (Or.inr (Or.inr hj)))
        (fun j hj _ => hpar j (Or.inr (Or.inr hj)) (hxr j hj)) ?_
      intro hne
      match r, hr with
      | node l' j r', hr =>
        have hj : m.right x ∈ (node l' j r').toList := hr.root_mem hne
        rw [hpar _ (Or.inr (Or.inr hj)) (hxr _ hj), hr.1]
        exact hr.2.2.1

/-- **Frame.** A memory that agrees on the cells of the tree holds the same tree. -/
theorem Linked.congr : ∀ {t : BinTree ι} {x p : ι}, Linked cell null m t x p →
    (∀ j ∈ t.toList, SameDown m m' j ∧ m'.parent j = m.parent j) → Linked cell null m' t x p
  | nil, _, _, h, _ => h
  | node l i r, x, p, ⟨hx, hi, hp, hh, hl, hr⟩, hag => by
    simp only [toList_node, List.mem_append, List.mem_cons] at hag
    obtain ⟨⟨e1, e2, e3⟩, e4⟩ := hag i (Or.inr (Or.inl rfl))
    refine ⟨hx, hi, by rw [e4, hp], by rw [e3, hh], ?_, ?_⟩
    · rw [e1]
      exact hl.congr fun j hj => hag j (Or.inl hj)
    · rw [e2]
      exact hr.congr fun j hj => hag j (Or.inr (Or.inr hj))

/-! ## Reachable cells -/

variable (cell null) in
/-- A child link of `i` leads to `j`. -/
def Child (m : Links ι) (i j : ι) : Prop := cell i ∧ (m.left i = j ∨ m.right i = j) ∧ j ≠ null

variable (cell null) in
/-- The child links lead from `x` to `j`. -/
def Reaches (m : Links ι) (x j : ι) : Prop := x ≠ null ∧ Relation.ReflTransGen (Child cell null m) x j

/-- The link under a child link leads where the child leads. -/
theorem Reaches.of_child {i x j : ι} (hc : cell i) (hi : i ≠ null) (hx : m.left i = x ∨ m.right i = x)
    (h : Reaches cell null m x j) : Reaches cell null m i j :=
  ⟨hi, h.2.head ⟨hc, hx, h.1⟩⟩

theorem Linked.child_mem (hnull : ¬ cell null) : ∀ {t : BinTree ι} {x p i j : ι}, Linked cell null m t x p →
    i ∈ t.toList → Child cell null m i j → j ∈ t.toList
  | nil, _, _, _, _, _, hi, _ => absurd hi List.not_mem_nil
  | node l k r, x, p, i, j, ⟨_, _, _, _, hl, hr⟩, hi, hij => by
    rw [toList_node, List.mem_append, List.mem_cons] at hi ⊢
    rcases hi with hi | rfl | hi
    · exact Or.inl (hl.child_mem hnull hi hij)
    · obtain ⟨-, rfl | rfl, hne⟩ := hij
      · exact Or.inl (hl.root_mem (mt (hl.nil_iff hnull).1 hne))
      · exact Or.inr (Or.inr (hr.root_mem (mt (hr.nil_iff hnull).1 hne)))
    · exact Or.inr (Or.inr (hr.child_mem hnull hi hij))

theorem Linked.reaches_of_mem (hnull : ¬ cell null) : ∀ {t : BinTree ι} {x p j : ι}, Linked cell null m t x p →
    j ∈ t.toList → Reaches cell null m x j
  | nil, _, _, _, _, hj => absurd hj List.not_mem_nil
  | node l k r, x, p, j, ⟨hx, hk, _, _, hl, hr⟩, hj => by
    subst hx
    have hne : x ≠ null := fun e => hnull (e ▸ hk)
    rw [toList_node, List.mem_append, List.mem_cons] at hj
    rcases hj with hj | rfl | hj
    · exact (hl.reaches_of_mem hnull hj).of_child hk hne (Or.inl rfl)
    · exact ⟨hne, Relation.ReflTransGen.refl⟩
    · exact (hr.reaches_of_mem hnull hj).of_child hk hne (Or.inr rfl)

/-- The tree lists the cells that its root link reaches. -/
theorem Linked.mem_iff_reaches (hnull : ¬ cell null) {t : BinTree ι} {x p j : ι} (h : Linked cell null m t x p) :
    j ∈ t.toList ↔ Reaches cell null m x j := by
  constructor
  · exact h.reaches_of_mem hnull
  · rintro ⟨hx, hj⟩
    induction hj with
    | refl => exact h.root_mem (mt (h.nil_iff hnull).1 hx)
    | tail _ hij ih => exact h.child_mem hnull ih hij

end Links

end Avl
