import TradeCore.Orderbook.VerifierProofs
/-!
# What `check_avl_topology` decides (`orderbook/order_book_verifier.hpp:236`)

The walk follows the links of any array, also of one that is no tree, and it goes on to the right of a node after a
failure on its left. It ends because each call that makes further calls has put a new index of the array into the one set
that all calls share (`checkAvlTopology_returns`). Its result stays good exactly where the links from the root spell an
AVL tree of the levels that they reach.

Main result: `check_avl_topology_exact`.
-/

namespace TradeCore

open Avl Avl.BinTree

namespace OrderBookVerifier

/-! ## Termination -/

/-- The set of the walk: every index once, and inside the array. -/
structure Seen (levels : List PriceLevel) (visited : List Index) : Prop where
  nodup : visited.Nodup
  inside : ∀ i ∈ visited, i.toNat < levels.length

variable {levels : List PriceLevel} {visited : List Index}

theorem Seen.nil : Seen levels [] := ⟨List.nodup_nil, by simp⟩

theorem Seen.cons {x : Index} (h : Seen levels visited) (hx : x.toNat < levels.length) (hf : x ∉ visited) :
    Seen levels (x :: visited) :=
  ⟨List.nodup_cons.2 ⟨hf, h.nodup⟩, List.forall_mem_cons.2 ⟨hx, h.inside⟩⟩

theorem Seen.length_le (h : Seen levels visited) : visited.length ≤ levels.length :=
  length_le_of_nodup h.nodup h.inside

/-- A call returns `out`, with this fuel or more, and has lost nothing from the set. -/
structure Returns (levels : List PriceLevel) (fuel : ℕ) (x p : Index) (visited : List Index) (result : VerificationResult)
    (out : ℤ × List Index × VerificationResult) : Prop where
  eq : ∀ n ≥ fuel, checkAvlTopology levels n x p visited result = pure out
  seen : Seen levels out.2.1
  grows : visited.length ≤ out.2.1.length

variable {fuel : ℕ} {x p : Index} {result : VerificationResult}

/-- One call, by what it does with some fuel left. -/
theorem Returns.of_succ {out : ℤ × List Index × VerificationResult}
    (h : ∀ n ≥ fuel, checkAvlTopology levels (n + 1) x p visited result = pure out) (hs : Seen levels out.2.1)
    (hg : visited.length ≤ out.2.1.length) : Returns levels (fuel + 1) x p visited result out := by
  refine ⟨fun n hn => ?_, hs, hg⟩
  obtain ⟨n, rfl⟩ := Nat.exists_eq_add_of_lt (Nat.lt_of_succ_le hn)
  exact h _ (Nat.le_add_right _ _)

/-- The call at a new level with the right parent, after the calls below it. -/
theorem Returns.node {level : PriceLevel} {l r : ℤ × List Index × VerificationResult} (hx : x ≠ kInvalidPoolIndex)
    (hl : levels[x.toNat]? = some level) (hv : x ∉ visited) (hp : level.node.parent = p)
    (hleft : Returns levels fuel level.node.left x (x :: visited) result l)
    (hright : Returns levels fuel level.node.right x l.2.1 l.2.2 r) :
    ∃ out, Returns levels (fuel + 1) x p visited result out := by
  have hg : visited.length ≤ r.2.1.length := by
    have h1 := hleft.grows
    have h2 := hright.grows
    rw [List.length_cons] at h1
    omega
  have hstep : ∀ n ≥ fuel, checkAvlTopology levels (n + 1) x p visited result =
      if r.2.2.ok = false then pure (-1, r.2.1, r.2.2)
      else
        let result :=
          if level.node.height ≠ 1 + max l.1 r.1 then r.2.2.fail "AVL stored height does not match computed height" else r.2.2
        pure (1 + max l.1 r.1, r.2.1,
          if r.1 - l.1 < -1 ∨ r.1 - l.1 > 1 then result.fail "AVL balance factor out of range [-1, 1]" else result) := by
    intro n hn
    conv_lhs => unfold checkAvlTopology
    simp only [if_neg hx, hl, if_neg hv, hp, ne_eq, not_true, if_false, hleft.eq n hn, hright.eq n hn, pure_bind]
  by_cases hok : r.2.2.ok = false
  · simp only [if_pos hok] at hstep
    exact ⟨_, Returns.of_succ hstep hright.seen hg⟩
  · simp only [if_neg hok] at hstep
    exact ⟨_, Returns.of_succ hstep hright.seen hg⟩

/-- **Termination**, on any links: the fuel that is left covers the indices that are not yet in the set. -/
theorem checkAvlTopology_returns : ∀ {fuel : ℕ} {x p : Index} {visited : List Index} {result : VerificationResult},
    Seen levels visited → levels.length < fuel + visited.length → ∃ out, Returns levels fuel x p visited result out
  | 0, _, _, _, _, hs, hlt => by
    have := hs.length_le
    omega
  | fuel + 1, x, p, visited, result, hs, hlt => by
    by_cases hx : x = kInvalidPoolIndex
    · subst hx
      exact ⟨_, Returns.of_succ (fun n _ => checkAvlTopology_null n p visited result) hs le_rfl⟩
    · cases hl : levels[x.toNat]? with
      | none =>
        refine ⟨(-1, visited, result.fail "AVL child index out of bounds"), Returns.of_succ (fun n _ => ?_) hs le_rfl⟩
        unfold checkAvlTopology
        simp only [if_neg hx, hl]
      | some level =>
        have hin : x.toNat < levels.length := (List.getElem?_eq_some_iff.1 hl).1
        by_cases hv : x ∈ visited
        · refine ⟨(-1, visited, result.fail "AVL tree contains cycles (node reachable multiple times)"),
            Returns.of_succ (fun n _ => ?_) hs le_rfl⟩
          unfold checkAvlTopology
          simp only [if_neg hx, hl, if_pos hv]
        · have hs' := hs.cons hin hv
          by_cases hp : level.node.parent = p
          · have hlt' : levels.length < fuel + (x :: visited).length := by
              rw [List.length_cons]
              omega
            have hl' : ∃ l, Returns levels fuel level.node.left x (x :: visited) result l := checkAvlTopology_returns hs' hlt'
            obtain ⟨l, hleft⟩ := hl'
            -- the set has not shrunk on the left, so the fuel covers what is left of the array
            have hlt'' := lt_of_lt_of_le hlt' (Nat.add_le_add_left hleft.grows fuel)
            obtain ⟨r, hright⟩ := checkAvlTopology_returns hleft.seen hlt''
            exact Returns.node hx hl hv hp hleft hright
          · refine ⟨(-1, x :: visited, result.fail "AVL parent pointer mismatch"),
              Returns.of_succ (fun n _ => ?_) hs' (Nat.le_succ _)⟩
            unfold checkAvlTopology
            simp only [if_neg hx, hl, if_neg hv, ne_eq, hp, not_false_eq_true, if_true]

/-! ## The tree -/

/-- The child links lead from `root` to `i`; they are read inside the array only. -/
def Reaches (levels : List PriceLevel) (root i : Index) : Prop :=
  Links.Reaches (Cell levels) kInvalidPoolIndex (links levels) root i

/-- The levels that the root reaches are the AVL tree `t`: every index is inside the array and stands in `t` once, the
parent fields name the levels above, the stored heights are true and every node is balanced. -/
structure FormsAvlTree (levels : List PriceLevel) (root : Index) (t : BinTree Index) : Prop where
  linked : TreeIn levels t root kInvalidPoolIndex
  balanced : t.Balanced
  once : t.toList.Nodup
  nodes : ∀ i, i ∈ t.toList ↔ Reaches levels root i

theorem not_cell_null : ¬ Cell levels kInvalidPoolIndex := fun h => h.1 rfl

theorem AvlIn.forms {root : Index} {t : BinTree Index} (h : AvlIn levels root t) : FormsAvlTree levels root t :=
  ⟨h.1, h.2.1, h.2.2, fun _ => Links.Linked.mem_iff_reaches not_cell_null h.1⟩

/-- **The check of an array**, whatever its links: it ends, its result is good exactly where the reachable levels form an
AVL tree, and then it returns the height of that tree. -/
theorem check_avl_topology_exact (levels : List PriceLevel) (root : Index) : ∃ height visited result,
    (∀ fuel > levels.length,
      checkAvlTopology levels fuel root kInvalidPoolIndex [] {} = pure (height, visited, result)) ∧
    (result.ok = true ↔ ∃ t, FormsAvlTree levels root t) ∧
    (∀ t, FormsAvlTree levels root t → height = t.height) := by
  have hreturns : ∃ out, Returns levels (levels.length + 1) root kInvalidPoolIndex [] {} out :=
    checkAvlTopology_returns Seen.nil (Nat.lt_succ_self _)
  obtain ⟨⟨height, visited, result⟩, hret⟩ := hreturns
  have hrun : checkAvlTopology levels (levels.length + 1) root kInvalidPoolIndex [] {} .debug = .ok (height, visited, result) := by
    rw [hret.eq _ le_rfl]
    rfl
  -- a tree of the array has fewer levels than there is fuel, and the walk finds it
  have hwalked : ∀ t, FormsAvlTree levels root t →
      Walked levels root kInvalidPoolIndex [] {} (height, visited, result) t := by
    intro t h
    have hlt : t.height < levels.length + 1 := Nat.lt_succ_of_le (h.linked.height_le h.once)
    have hok : ({} : VerificationResult).ok = true := rfl
    obtain ⟨out, hout, hw⟩ := checkAvlTopology_complete hok h.linked h.balanced h.once (fun _ _ => List.not_mem_nil) hlt
    rw [hrun, Except.ok.injEq] at hout
    rwa [hout]
  refine ⟨height, visited, result, fun fuel hf => hret.eq fuel hf, ⟨fun hok => ?_, ?_⟩, fun t h => (hwalked t h).height⟩
  · obtain ⟨t, ht⟩ := checkAvlTopology_sound hrun hok
    exact ⟨t, AvlIn.forms ⟨ht.tree, ht.balanced, ht.nodup⟩⟩
  · rintro ⟨t, h⟩
    have hw := hwalked t h
    rw [show result = {} from hw.unchanged]

end OrderBookVerifier

end TradeCore
