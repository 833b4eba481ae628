import TradeCore.Lib.LinkedTree
import TradeCore.Orderbook.AvlTree
/-!
# `avl::rotate_*`, `rebalance`, `insert`, `remove`, `find` refine the trees of `Lib/AvlTree.lean`

`TreeAt pool t x p`: the links of the pool under index `x` are the tree `t` of slot indices, with
parent `p` at the root and true heights. `HeadAt pool d near i far p` is the same for a node with subtree
`near` on side `d` whose own stored height may be stale, which is what `rebalance` starts from.

`NodeFrame is pool pool'`: only the AVL metadata of the slots in `is` may have changed. Prices,
quantities, FIFO links, sides and the free list are untouched.
-/

namespace TradeCore

open Avl Avl.BinTree Avl.Links

variable {cap : PoolCapacity}

namespace PriceLevelPool

/-- The AVL metadata of the whole pool. -/
def links (pool : PriceLevelPool cap) : Links Index where
  left i := (pool.node i).left
  right i := (pool.node i).right
  parent i := (pool.node i).parent
  height i := (pool.node i).height

/-- The key of a slot: its price. -/
def priceOf (pool : PriceLevelPool cap) (i : Index) : ℕ := (pool.slots i).price.toNat

end PriceLevelPool

open ObjectPool

def TreeAt (pool : PriceLevelPool cap) (t : BinTree Index) (x p : Index) : Prop :=
  Linked (Valid cap) kInvalidPoolIndex pool.links t x p

/-- A node with its two subtrees, `near` on side `d`; its stored height is not constrained. -/
structure HeadAt (pool : PriceLevelPool cap) (d : Dir) (near : BinTree Index) (i : Index) (far : BinTree Index)
    (p : Index) : Prop where
  valid : Valid cap i
  parent : (pool.node i).parent = p
  near : TreeAt pool near ((pool.node i).child d) i
  far : TreeAt pool far ((pool.node i).child d.flip) i

/-- Only the AVL metadata of the slots in `is` may differ. -/
structure NodeFrame (is : List Index) (pool pool' : PriceLevelPool cap) : Prop where
  freeHead : pool'.freeHead = pool.freeHead
  activeCount : pool'.activeCount = pool.activeCount
  payload : ∀ j, pool'.slots j = { pool.slots j with node := (pool'.slots j).node }
  other : ∀ j, j ∉ is → pool'.slots j = pool.slots j

namespace NodeFrame

variable {is js : List Index} {pool pool' pool'' : PriceLevelPool cap}

theorem refl (is : List Index) (pool : PriceLevelPool cap) : NodeFrame is pool pool :=
  ⟨rfl, rfl, fun _ => rfl, fun _ _ => rfl⟩

theorem trans (h : NodeFrame is pool pool') (h' : NodeFrame is pool' pool'') : NodeFrame is pool pool'' where
  freeHead := h'.freeHead.trans h.freeHead
  activeCount := h'.activeCount.trans h.activeCount
  payload j := by rw [h'.payload j, h.payload j]
  other j hj := (h'.other j hj).trans (h.other j hj)

theorem mono (h : NodeFrame is pool pool') (hs : ∀ i ∈ is, i ∈ js) : NodeFrame js pool pool' :=
  { h with other := fun j hj => h.other j fun hi => hj (hs j hi) }

theorem priceOf (h : NodeFrame is pool pool') (j : Index) : pool'.priceOf j = pool.priceOf j := by
  unfold PriceLevelPool.priceOf
  rw [h.payload j]

theorem node_eq (h : NodeFrame is pool pool') {j : Index} (hj : j ∉ is) : pool'.node j = pool.node j := by
  unfold PriceLevelPool.node
  rw [h.other j hj]

/-- A single write to the metadata of slot `i`. -/
theorem withNode (pool : PriceLevelPool cap) {i : Index} (hi : i ∈ is) (f : AVLNode → AVLNode) :
    NodeFrame is pool (pool.modify i (·.withNode f)) where
  freeHead := rfl
  activeCount := rfl
  payload j := by
    rw [modify_slots]
    split
    · rename_i e; rw [e]; rfl
    · rfl
  other j hj := modify_slots_of_ne _ (fun e => hj (by rw [e]; exact hi)) _

end NodeFrame

/-! ## One write at a time -/

@[simp] theorem AVLNode.child_withChild (d : Dir) (v : Index) (n : AVLNode) : (n.withChild d v).child d = v := by
  cases d <;> rfl

@[simp] theorem AVLNode.child_flip_withChild (d : Dir) (v : Index) (n : AVLNode) :
    (n.withChild d v).child d.flip = n.child d.flip := by
  cases d <;> rfl

@[simp] theorem AVLNode.child_withChild_flip (d : Dir) (v : Index) (n : AVLNode) :
    (n.withChild d.flip v).child d = n.child d := by
  cases d <;> rfl

@[simp] theorem AVLNode.parent_withChild (d : Dir) (v : Index) (n : AVLNode) : (n.withChild d v).parent = n.parent := by
  cases d <;> rfl

@[simp] theorem AVLNode.height_withChild (d : Dir) (v : Index) (n : AVLNode) : (n.withChild d v).height = n.height := by
  cases d <;> rfl

section Writes
variable (pool : PriceLevelPool cap) (i j v : Index)

theorem node_withNode (f : AVLNode → AVLNode) :
    PriceLevelPool.node (pool.modify i (·.withNode f)) j = if j = i then f (pool.node i) else pool.node j := by
  unfold PriceLevelPool.node
  rw [modify_slots]
  split <;> rfl

theorem node_setChild (d : Dir) :
    (pool.setChild d i v).node j = if j = i then (pool.node i).withChild d v else pool.node j :=
  node_withNode pool i j _

theorem node_setParent : (pool.setParent i v).node j = if j = i then { pool.node i with parent := v } else pool.node j :=
  node_withNode pool i j _

theorem node_setHeight (h : Int) :
    (pool.setHeight i h).node j = if j = i then { pool.node i with height := h } else pool.node j :=
  node_withNode pool i j _

end Writes

/-- What `setParentIf` writes. -/
def PriceLevelPool.reparent (pool : PriceLevelPool cap) (x p : Index) : PriceLevelPool cap :=
  if x = kInvalidPoolIndex then pool else pool.setParent x p

theorem node_reparent (pool : PriceLevelPool cap) (x p j : Index) :
    (pool.reparent x p).node j =
      if j = x ∧ x ≠ kInvalidPoolIndex then { pool.node x with parent := p } else pool.node j := by
  unfold PriceLevelPool.reparent
  by_cases hx : x = kInvalidPoolIndex
  · simp [hx]
  · simp [hx, node_setParent]

theorem NodeFrame.reparent (pool : PriceLevelPool cap) {is : List Index} {x : Index} (p : Index)
    (hx : x ≠ kInvalidPoolIndex → x ∈ is) : NodeFrame is pool (pool.reparent x p) := by
  unfold PriceLevelPool.reparent
  split
  · exact NodeFrame.refl is pool
  · rename_i h
    exact NodeFrame.withNode pool (hx h) _

/-! ## Trees in the pool -/

namespace TreeAt

variable {pool pool' : PriceLevelPool cap} {t : BinTree Index} {x p : Index}

theorem not_valid_invalid : ¬ Valid cap kInvalidPoolIndex := fun h => h.ne_invalid rfl

theorem nil_iff (h : TreeAt pool t x p) : t = nil ↔ x = kInvalidPoolIndex := Linked.nil_iff not_valid_invalid h

theorem valid (h : TreeAt pool t x p) : ∀ i ∈ t.toList, Valid cap i := h.cells

theorem root_mem (h : TreeAt pool t x p) (hx : x ≠ kInvalidPoolIndex) : x ∈ t.toList :=
  Linked.root_mem h fun e => hx (h.nil_iff.1 e)

theorem root_valid (h : TreeAt pool t x p) : x = kInvalidPoolIndex ∨ Valid cap x := by
  by_cases hx : x = kInvalidPoolIndex
  · exact Or.inl hx
  · exact Or.inr (h.valid x (h.root_mem hx))

theorem nodeOn_iff {d : Dir} {near far : BinTree Index} {i : Index} : TreeAt pool (nodeOn d near i far) x p ↔
    x = i ∧ HeadAt pool d near i far p ∧ (pool.node i).height = (nodeOn d near i far).height := by
  cases d
  · constructor
    · rintro ⟨rfl, hi, hp, hh, hl, hr⟩
      exact ⟨rfl, ⟨hi, hp, hl, hr⟩, hh⟩
    · rintro ⟨rfl, h, hh⟩
      exact ⟨rfl, h.valid, h.parent, hh, h.near, h.far⟩
  · constructor
    · rintro ⟨rfl, hi, hp, hh, hl, hr⟩
      exact ⟨rfl, ⟨hi, hp, hr, hl⟩, hh⟩
    · rintro ⟨rfl, h, hh⟩
      exact ⟨rfl, h.valid, h.parent, hh, h.far, h.near⟩

theorem node_iff {l r : BinTree Index} {i : Index} : TreeAt pool (node l i r) x p ↔
    x = i ∧ HeadAt pool .left l i r p ∧ (pool.node i).height = (node l i r).height :=
  nodeOn_iff (d := .left)

theorem head {l r : BinTree Index} {i : Index} (h : TreeAt pool (node l i r) x p) : HeadAt pool .left l i r p :=
  (node_iff.1 h).2.1

/-- **The children of a node**, in the order of a walk that turns to side `d` first. -/
theorem children {l r : BinTree Index} {i : Index} (h : TreeAt pool (node l i r) x p) (d : Dir) :
    ∃ near far, TreeAt pool near ((pool.node x).child d) x ∧ TreeAt pool far ((pool.node x).child d.flip) x ∧
      near.height < (node l i r).height ∧ far.height < (node l i r).height ∧
      d.visit (node l i r).toList = d.visit near.toList ++ x :: d.visit far.toList := by
  obtain ⟨rfl, hh, -⟩ := node_iff.1 h
  rw [height_node]
  cases d with
  | left => exact ⟨l, r, hh.near, hh.far, by omega, by omega, rfl⟩
  | right => exact ⟨r, l, hh.far, hh.near, by omega, by omega, by simp [Dir.visit]⟩

/-- Nothing in the tree was written to. -/
theorem congr (h : TreeAt pool t x p) (hn : ∀ j ∈ t.toList, pool'.node j = pool.node j) : TreeAt pool' t x p :=
  Linked.congr h fun j hj => by simp only [SameDown, PriceLevelPool.links, hn j hj, and_self]

theorem frame {is : List Index} (h : TreeAt pool t x p) (hf : NodeFrame is pool pool')
    (hd : ∀ j ∈ t.toList, j ∉ is) : TreeAt pool' t x p :=
  h.congr fun j hj => hf.node_eq (hd j hj)

/-- Only the parent link of the root was written to. -/
theorem move {p' : Index} (h : TreeAt pool t x p) (hnd : t.toList.Nodup)
    (hn : ∀ j ∈ t.toList, j ≠ x → pool'.node j = pool.node j)
    (hx : t ≠ nil → pool'.node x = { pool.node x with parent := p' }) : TreeAt pool' t x p' := by
  refine Linked.move h hnd (fun j hj => ?_) (fun j hj hjx => ?_) (fun ht => ?_)
  · by_cases hjx : j = x
    · subst hjx
      have ht : t ≠ nil := by rintro rfl; cases hj
      simp only [SameDown, PriceLevelPool.links, hx ht, and_self]
    · simp only [SameDown, PriceLevelPool.links, hn j hj hjx, and_self]
  · simp only [PriceLevelPool.links, hn j hj hjx]
  · simp only [PriceLevelPool.links, hx ht]

/-- **`setParentIf`** on the root of a tree, in this pool or a later one. -/
theorem setParentIf_eq (h : TreeAt pool t x p) (q : PriceLevelPool cap) (p' : Index) :
    avl.setParentIf q x p' = pure (q.reparent x p') := by
  unfold avl.setParentIf PriceLevelPool.reparent
  rcases h.root_valid with hx | hx
  · simp [hx]
  · simp [hx.ne_invalid, get_eq _ hx]

theorem reparent (h : TreeAt pool t x p) (hnd : t.toList.Nodup) (p' : Index) :
    TreeAt (pool.reparent x p') t x p' := by
  refine h.move hnd (fun j _ hjx => ?_) (fun ht => ?_)
  · rw [node_reparent, if_neg (fun e => hjx e.1)]
  · rw [node_reparent, if_pos ⟨rfl, fun e => ht (h.nil_iff.2 e)⟩]

/-- **`height`** reads the true height. -/
theorem height_eq (h : TreeAt pool t x p) : avl.height pool x = pure (t.height : ℤ) := by
  unfold avl.height
  match t, h with
  | nil, h => simp [show x = kInvalidPoolIndex from h]
  | node l i r, h =>
    obtain ⟨rfl, hh, he⟩ := node_iff.1 h
    rw [if_neg hh.valid.ne_invalid, get_eq _ hh.valid, pure_bind]
    exact congrArg pure he

end TreeAt

namespace HeadAt

variable {pool pool' : PriceLevelPool cap} {d : Dir} {near far : BinTree Index} {i p : Index}

theorem flip (h : HeadAt pool d near i far p) : HeadAt pool d.flip far i near p :=
  ⟨h.valid, h.parent, h.far, by rw [Dir.flip_flip]; exact h.near⟩

theorem balanceFactor_eq {l r : BinTree Index} (h : HeadAt pool .left l i r p) :
    avl.balanceFactor pool i = pure (node l i r).balance := by
  have e1 : avl.height pool (pool.slots i).node.left = pure (l.height : ℤ) := h.near.height_eq
  have e2 : avl.height pool (pool.slots i).node.right = pure (r.height : ℤ) := h.far.height_eq
  simp [avl.balanceFactor, get_eq _ h.valid, e1, e2, balance_node]

/-- **`update_height`** stores the true height. -/
theorem updateHeight_eq (h : HeadAt pool d near i far p) :
    avl.updateHeight pool i = pure (pool.setHeight i (1 + max near.height far.height)) := by
  have key : ∀ {l r : BinTree Index}, HeadAt pool .left l i r p →
      avl.updateHeight pool i = pure (pool.setHeight i (1 + max l.height r.height)) := by
    intro l r h
    have e1 : avl.height pool (pool.slots i).node.left = pure (l.height : ℤ) := h.near.height_eq
    have e2 : avl.height pool (pool.slots i).node.right = pure (r.height : ℤ) := h.far.height_eq
    simp [avl.updateHeight, get_eq _ h.valid, e1, e2]
  cases d with
  | left => exact key h
  | right => rw [max_comm]; exact key h.flip

/-- **`update_height`** makes a head a tree. -/
theorem updateHeight_spec (h : HeadAt pool d near i far p) (hn : i ∉ near.toList) (hf : i ∉ far.toList) :
    ∃ pool', avl.updateHeight pool i = pure pool' ∧ TreeAt pool' (nodeOn d near i far) i p ∧
      NodeFrame [i] pool pool' := by
  have hF : NodeFrame [i] pool (pool.setHeight i (1 + max near.height far.height)) :=
    NodeFrame.withNode pool (List.mem_singleton.2 rfl) _
  have hi : (pool.setHeight i (1 + max near.height far.height)).node i =
      { pool.node i with height := 1 + max near.height far.height } := by
    rw [node_setHeight, if_pos rfl]
  have hc : ∀ d', ((pool.setHeight i (1 + max near.height far.height)).node i).child d' = (pool.node i).child d' := by
    intro d'
    rw [hi]
    cases d' <;> rfl
  refine ⟨_, h.updateHeight_eq, TreeAt.nodeOn_iff.2 ⟨rfl, ⟨h.valid, by rw [hi]; exact h.parent, ?_, ?_⟩, ?_⟩, hF⟩
  · rw [hc]
    exact h.near.frame hF fun j hj => by simpa using fun e : j = i => hn (e ▸ hj)
  · rw [hc]
    exact h.far.frame hF fun j hj => by simpa using fun e : j = i => hf (e ▸ hj)
  · rw [hi, height_nodeOn]
    simp

end HeadAt

/-! ## Rotations -/

section Rotations

variable {pool : PriceLevelPool cap} {d : Dir} {a b c : BinTree Index} {y z p : Index}

/-- **`rotate_right` and `rotate_left`**, whatever the stored heights of the two rotated nodes. -/
theorem rotate_spec (h : HeadAt pool d (nodeOn d a y b) z c p)
    (hnd : (nodeOn d (nodeOn d a y b) z c).toList.Nodup) :
    ∃ pool', avl.rotate d pool z = pure (pool', y) ∧ TreeAt pool' (nodeOn d a y (nodeOn d b z c)) y p ∧
      NodeFrame (nodeOn d (nodeOn d a y b) z c).toList pool pool' := by
  obtain ⟨hzv, hzp, hl, hc⟩ := h
  obtain ⟨hly, ⟨hyv, hyp, ha, hb⟩, -⟩ := TreeAt.nodeOn_iff.1 hl
  simp only [nodup_nodeOn, mem_nodeOn, not_or] at hnd
  obtain ⟨⟨hna, hnb, hya, hyb, hab⟩, hnc, ⟨hza, hzy, hzb⟩, hzc, hdc⟩ := hnd
  have hyz : y ≠ z := Ne.symm hzy
  have hyc : y ∉ c.toList := hdc y (Or.inr (Or.inl rfl))
  have hbc : ∀ j ∈ b.toList, j ∉ c.toList := fun j hj => hdc j (Or.inr (Or.inr hj))
  generalize ht : (pool.node y).child d.flip = t at hb
  have htb : t ≠ kInvalidPoolIndex → t ∈ b.toList := hb.root_mem
  have hty : t ≠ y ∨ t = kInvalidPoolIndex := by
    by_cases e : t = kInvalidPoolIndex
    · exact Or.inr e
    · exact Or.inl fun e' => hyb (e' ▸ htb e)
  have htz : t ≠ z ∨ t = kInvalidPoolIndex := by
    by_cases e : t = kInvalidPoolIndex
    · exact Or.inr e
    · exact Or.inl fun e' => hzb (e' ▸ htb e)
  have hzt : ¬ (z = t ∧ t ≠ kInvalidPoolIndex) := fun e => htz.elim (fun h => h e.1.symm) e.2
  have hyt : ¬ (y = t ∧ t ≠ kInvalidPoolIndex) := fun e => hty.elim (fun h => h e.1.symm) e.2
  -- the pool before the two height updates
  obtain ⟨q, hq⟩ : ∃ q, q = ((((pool.setChild d z t).reparent t z).setChild d.flip y z).setParent y p).setParent z y :=
    ⟨_, rfl⟩
  have nz : q.node z = { (pool.node z).withChild d t with parent := y } := by
    simp [hq, node_setChild, node_reparent, node_setParent, hzt, hzy]
  have ny : q.node y = { (pool.node y).withChild d.flip z with parent := p } := by
    simp [hq, node_setChild, node_reparent, node_setParent, hyt, hyz]
  have nj : ∀ j, j ≠ y → j ≠ z → j ∉ b.toList → q.node j = pool.node j := by
    intro j hjy hjz hjb
    have hjt : ¬ (j = t ∧ t ≠ kInvalidPoolIndex) := fun e => hjb (e.1 ▸ htb e.2)
    simp [hq, node_setChild, node_reparent, node_setParent, hjt, hjy, hjz]
  have nb : TreeAt q b t z := by
    refine hb.move hnb (fun j hj hjt => ?_) (fun hne => ?_)
    · have hjy : j ≠ y := fun e => hyb (e ▸ hj)
      have hjz : j ≠ z := fun e => hzb (e ▸ hj)
      simp [hq, node_setChild, node_reparent, node_setParent, hjt, hjy, hjz]
    · have ht0 : t ≠ kInvalidPoolIndex := fun e => hne (hb.nil_iff.2 e)
      have hty' : t ≠ y := fun e => hyb (e ▸ htb ht0)
      have htz' : t ≠ z := fun e => hzb (e ▸ htb ht0)
      simp [hq, node_setChild, node_reparent, node_setParent, ht0, hty', htz']
  have hF : NodeFrame (nodeOn d (nodeOn d a y b) z c).toList pool q := by
    have hyin : y ∈ (nodeOn d (nodeOn d a y b) z c).toList := by simp [mem_nodeOn]
    have hzin : z ∈ (nodeOn d (nodeOn d a y b) z c).toList := by simp [mem_nodeOn]
    rw [hq]
    refine ((((NodeFrame.withNode pool hzin _).trans (NodeFrame.reparent _ _ fun hx => ?_)).trans
      (NodeFrame.withNode _ hyin _)).trans (NodeFrame.withNode _ hyin _)).trans (NodeFrame.withNode _ hzin _)
    simp [mem_nodeOn, htb hx]
  -- the node moved down, then the node moved up
  have hz : HeadAt q d b z c y := by
    refine ⟨hzv, by rw [nz], ?_, ?_⟩
    · rw [nz]
      cases d <;> exact nb
    · have hcq : TreeAt q c ((pool.node z).child d.flip) z :=
        hc.congr fun j hj => nj j (fun e => hyc (e ▸ hj)) (fun e => hzc (e ▸ hj)) fun hb' => hbc j hb' hj
      rw [nz]
      cases d <;> exact hcq
  obtain ⟨q1, e1, t1, f1⟩ := hz.updateHeight_spec hzb hzc
  have hy : HeadAt q1 d a y (nodeOn d b z c) p := by
    have ny1 : q1.node y = { (pool.node y).withChild d.flip z with parent := p } := by
      rw [f1.node_eq (by simpa using hyz), ny]
    have haq : TreeAt q1 a ((pool.node y).child d) y := by
      refine ha.congr fun j hj => ?_
      have hjy : j ≠ y := fun e => hya (e ▸ hj)
      have hjz : j ≠ z := fun e => hza (e ▸ hj)
      rw [f1.node_eq (by simpa using hjz), nj j hjy hjz (hab j hj)]
    refine ⟨hyv, by rw [ny1], ?_, ?_⟩
    · rw [ny1]
      cases d <;> exact haq
    · rw [ny1]
      cases d <;> exact t1
  obtain ⟨q2, e2, t2, f2⟩ := hy.updateHeight_spec hya (by simp [mem_nodeOn, hyb, hyz, hyc])
  refine ⟨q2, ?_, t2, (hF.trans (f1.mono (by simp [mem_nodeOn]))).trans (f2.mono (by simp [mem_nodeOn]))⟩
  have gy : (pool.slots z).node.child d = y := hly
  have gt : (pool.slots y).node.child d.flip = t := ht
  have hpz : (((pool.setChild d z t).reparent t z).setChild d.flip y z).node z = (pool.node z).withChild d t := by
    simp [node_setChild, node_reparent, hzt, hzy]
  have hrep : ∀ q : PriceLevelPool cap, avl.setParentIf q t z = pure (q.reparent t z) :=
    fun q => hb.setParentIf_eq q z
  unfold avl.rotate
  rw [get_eq _ hzv, pure_bind]
  simp only [gy, get_eq _ hyv, pure_bind, gt, hrep, hpz, AVLNode.parent_withChild, hzp]
  rw [← hq, e1, pure_bind, e2, pure_bind]

end Rotations

/-! ## `rebalance` -/

section Rebalance

variable {pool pool1 : PriceLevelPool cap} {d : Dir} {near near' far : BinTree Index} {i x p q : Index} {is : List Index}

theorem NodeFrame.setChild (pool : PriceLevelPool cap) (d : Dir) (v : Index) (hi : i ∈ is) :
    NodeFrame is pool (pool.setChild d i v) := NodeFrame.withNode pool hi _

/-- **A node gets a new subtree.** The subtree `near` was rebuilt as `near'` by writes that left the node
and `far` alone; linking it in and setting its parent makes a node again. -/
theorem HeadAt.link (h : HeadAt pool d near i far p) (hF : NodeFrame is pool pool1) (hi : i ∉ is)
    (hfar : ∀ j ∈ far.toList, j ∉ is) (ht : TreeAt pool1 near' x q)
    (hnd : (nodeOn d near' i far).toList.Nodup) :
    HeadAt ((pool1.setChild d i x).reparent x i) d near' i far p ∧
      NodeFrame (i :: near'.toList) pool1 ((pool1.setChild d i x).reparent x i) := by
  obtain ⟨hn', -, hin, hif, hdis⟩ := nodup_nodeOn.1 hnd
  have hxi : x ≠ kInvalidPoolIndex → x ∈ near'.toList := ht.root_mem
  have hix : ¬ (i = x ∧ x ≠ kInvalidPoolIndex) := fun e => hin (e.1 ▸ hxi e.2)
  have ni : ((pool1.setChild d i x).reparent x i).node i = (pool.node i).withChild d x := by
    simp [node_reparent, node_setChild, hix, hF.node_eq hi]
  have hj : ∀ j, j ≠ i → j ∉ near'.toList → ((pool1.setChild d i x).reparent x i).node j = pool1.node j := by
    intro j hji hjn
    have hjx : ¬ (j = x ∧ x ≠ kInvalidPoolIndex) := fun e => hjn (by rw [e.1]; exact hxi e.2)
    simp [node_reparent, node_setChild, hji, hjx]
  refine ⟨⟨h.valid, by rw [ni]; simpa using h.parent, ?_, ?_⟩, ?_⟩
  · rw [ni, AVLNode.child_withChild]
    have : TreeAt (pool1.setChild d i x) near' x q := by
      refine ht.congr fun j hj' => ?_
      rw [node_setChild, if_neg]
      rintro rfl
      exact hin hj'
    exact this.reparent hn' i
  · rw [ni, AVLNode.child_flip_withChild]
    refine (h.far.frame hF hfar).congr fun j hj' => hj j (fun e => hif (e ▸ hj')) fun hn => hdis j hn hj'
  · exact (NodeFrame.setChild _ d x (by simp)).trans (NodeFrame.reparent _ _ fun hx => by simp [hxi hx])

/-- The double rotation of a node whose subtree on side `d` is too high on the inside. -/
theorem rotate_rotate_spec {a b1 b2 c : BinTree Index} {w y z : Index}
    (h : HeadAt pool d (nodeOn d a y (nodeOn d b1 w b2)) z c p)
    (hnd : (nodeOn d (nodeOn d a y (nodeOn d b1 w b2)) z c).toList.Nodup) :
    ∃ pool1 pool2, avl.rotate d.flip pool y = pure (pool1, w) ∧
      avl.rotate d ((pool1.setChild d z w).reparent w z) z = pure (pool2, w) ∧ w ≠ kInvalidPoolIndex ∧
      TreeAt pool2 (nodeOn d (nodeOn d a y b1) w (nodeOn d b2 z c)) w p ∧
      NodeFrame (nodeOn d (nodeOn d a y (nodeOn d b1 w b2)) z c).toList pool pool2 := by
  have hswap : ∀ (d : Dir) (n f : BinTree Index) (i : Index), nodeOn d n i f = nodeOn d.flip f i n := by
    intro d n f i; cases d <;> rfl
  have hnd' := hnd
  simp only [nodup_nodeOn, mem_nodeOn, not_or] at hnd'
  obtain ⟨⟨hna, ⟨hnb1, hnb2, hwb1, hwb2, hb12⟩, hya, ⟨hyb1, hyw, hyb2⟩, hab⟩, hnc, ⟨hza, hzy, hzb1, hzw, hzb2⟩, hzc, hdc⟩ := hnd'
  obtain ⟨-, hy, -⟩ := TreeAt.nodeOn_iff.1 h.near
  have hy' : HeadAt pool d.flip (nodeOn d.flip b2 w b1) y a z := by
    have := hy.flip
    rwa [hswap d b1] at this
  have hndy : (nodeOn d.flip (nodeOn d.flip b2 w b1) y a).toList.Nodup := by
    rw [← hswap d b1, ← hswap d a]
    exact (nodup_nodeOn.1 hnd).1
  obtain ⟨pool1, e1, t1, f1⟩ := rotate_spec hy' hndy
  rw [← hswap d b1, ← hswap d a] at f1
  have hw : w ≠ kInvalidPoolIndex := (t1.valid w (by simp [mem_nodeOn])).ne_invalid
  rw [← hswap d (nodeOn d.flip b1 y a), ← hswap d a] at t1
  have hndz : (nodeOn d (nodeOn d (nodeOn d a y b1) w b2) z c).toList.Nodup := by
    simp only [nodup_nodeOn, mem_nodeOn, not_or]
    have hab1 : ∀ j ∈ a.toList, j ∉ b1.toList := fun j hj => (hab j hj).1
    refine ⟨⟨⟨hna, hnb1, hya, hyb1, hab1⟩, hnb2, ⟨fun hwa => (hab w hwa).2.1 rfl, Ne.symm hyw, hwb1⟩, hwb2, ?_⟩, hnc,
      ⟨⟨hza, hzy, hzb1⟩, hzw, hzb2⟩, hzc, ?_⟩
    · rintro j (hj | rfl | hj)
      · exact (hab j hj).2.2
      · exact hyb2
      · exact hb12 j hj
    · rintro j ((hj | rfl | hj) | rfl | hj)
      · exact hdc j (Or.inl hj)
      · exact hdc _ (Or.inr (Or.inl rfl))
      · exact hdc j (Or.inr (Or.inr (Or.inl hj)))
      · exact hdc _ (Or.inr (Or.inr (Or.inr (Or.inl rfl))))
      · exact hdc j (Or.inr (Or.inr (Or.inr (Or.inr hj))))
  have hz1 : z ∉ (nodeOn d a y (nodeOn d b1 w b2)).toList := (nodup_nodeOn.1 hnd).2.2.1
  obtain ⟨hz, f2⟩ := h.link f1 hz1 (fun j hj hj' => (nodup_nodeOn.1 hnd).2.2.2.2 j hj' hj) t1 hndz
  obtain ⟨pool2, e2, t2, f3⟩ := rotate_spec hz hndz
  have hsame : ∀ j, j ∈ (nodeOn d (nodeOn d a y b1) w b2).toList ↔ j ∈ (nodeOn d a y (nodeOn d b1 w b2)).toList := by
    intro j
    simp only [mem_nodeOn, or_assoc]
  refine ⟨pool1, pool2, e1, e2, hw, t2, ((f1.mono ?_).trans (f2.mono ?_)).trans (f3.mono ?_)⟩
  · exact fun j hj => mem_nodeOn.2 (Or.inl hj)
  · intro j hj
    rcases List.mem_cons.1 hj with rfl | hj
    · exact mem_nodeOn.2 (Or.inr (Or.inl rfl))
    · exact mem_nodeOn.2 (Or.inl ((hsame j).1 hj))
  · exact fun j hj => mem_nodeOn.2 ((mem_nodeOn.1 hj).imp_left (hsame j).1)

/-- **`rebalance`** at a node whose subtrees are in order. -/
theorem rebalance_spec {l r : BinTree Index} (h : HeadAt pool .left l i r p) (hnd : (node l i r).toList.Nodup)
    (stats : AVLStatistics) :
    ∃ pool' root stats', avl.rebalance pool i stats = pure (pool', root, stats') ∧
      TreeAt pool' (BinTree.rebalance l i r) root p ∧ NodeFrame (node l i r).toList pool pool' := by
  obtain ⟨-, -, hil, hir, -⟩ := nodup_nodeOn (d := .left).1 hnd
  obtain ⟨pool1, e1, t1, f1⟩ := h.updateHeight_spec hil hir
  have f1' : NodeFrame (node l i r).toList pool pool1 := f1.mono (by simp)
  have h1 : HeadAt pool1 .left l i r p := TreeAt.head t1
  unfold avl.rebalance BinTree.rebalance
  rw [e1, pure_bind, h1.balanceFactor_eq, pure_bind]
  have hbal := balance_node l i r
  by_cases hL : (node l i r).balance < -1
  · rw [if_pos hL, if_pos hL]
    match l, h1 with
    | nil, _ => simp only [height_nil] at hbal; omega
    | node a y b, h1 =>
      obtain ⟨hly, hy, -⟩ := TreeAt.node_iff.1 h1.near
      have hly' : (pool1.node i).left = y := hly
      simp only [hly', hy.balanceFactor_eq, pure_bind]
      by_cases hS : (node a y b).balance ≤ 0
      · obtain ⟨pool2, e2, t2, f2⟩ := rotate_spec h1 hnd
        rw [if_pos hS, if_pos hS]
        refine ⟨pool2, y, { stats with llRotations := stats.llRotations + 1 }, ?_, t2, f1'.trans f2⟩
        simp only [avl.rotateRight, e2, pure_bind]
      · rw [if_neg hS, if_neg hS]
        have hbal' := balance_node a y b
        match b, h1 with
        | nil, _ => simp only [height_nil] at hbal'; omega
        | node b1 w b2, h1 =>
          obtain ⟨pool2, pool3, e2, e3, hw, t3, f3⟩ := rotate_rotate_spec (d := .left) h1 hnd
          refine ⟨pool3, w, { stats with lrRotations := stats.lrRotations + 1 }, ?_, t3, f1'.trans f3⟩
          have e3' : avl.rotate .left ((pool2.setLeft i w).setParent w i) i = pure (pool3, w) := by
            rw [← e3]
            simp [PriceLevelPool.reparent, hw, PriceLevelPool.setLeft]
          have hwv : Valid cap w := t3.valid w (by simp [mem_nodeOn])
          simp only [avl.rotateLeft, avl.rotateRight, show Dir.right = Dir.left.flip from rfl, e2, pure_bind]
          simp only [avl.setParentIf, hw, ne_eq, not_false_eq_true, if_true, get_eq _ hwv, pure_bind, e3']
  · rw [if_neg hL, if_neg hL]
    by_cases hR : (node l i r).balance > 1
    · rw [if_pos hR, if_pos hR]
      have h1' : HeadAt pool1 .right r i l p := h1.flip
      match r, h1' with
      | nil, _ => simp only [height_nil] at hbal; omega
      | node b y a, h1' =>
        obtain ⟨hly, hy, -⟩ := TreeAt.node_iff.1 h1'.near
        have hly' : (pool1.node i).right = y := hly
        simp only [hly', hy.balanceFactor_eq, pure_bind]
        by_cases hS : (node b y a).balance ≥ 0
        · obtain ⟨pool2, e2, t2, f2⟩ := rotate_spec (d := .right) (a := a) (b := b) h1' hnd
          rw [if_pos hS, if_pos hS]
          refine ⟨pool2, y, { stats with rrRotations := stats.rrRotations + 1 }, ?_, t2, f1'.trans f2⟩
          simp only [avl.rotateLeft, e2, pure_bind]
        · rw [if_neg hS, if_neg hS]
          have hbal' := balance_node b y a
          match b, h1' with
          | nil, _ => simp only [height_nil] at hbal'; omega
          | node b2 w b1, h1' =>
            have h1'' : HeadAt pool1 .right (nodeOn .right a y (nodeOn .right b1 w b2)) i l p := h1'
            obtain ⟨pool2, pool3, e2, e3, hw, t3, f3⟩ := rotate_rotate_spec h1'' hnd
            refine ⟨pool3, w, { stats with rlRotations := stats.rlRotations + 1 }, ?_, t3, f1'.trans f3⟩
            have e3' : avl.rotate .right ((pool2.setRight i w).setParent w i) i = pure (pool3, w) := by
              rw [← e3]
              simp [PriceLevelPool.reparent, hw, PriceLevelPool.setRight]
            have hwv : Valid cap w := t3.valid w (by simp [mem_nodeOn])
            simp only [avl.rotateLeft, avl.rotateRight, show Dir.left = Dir.right.flip from rfl, e2, pure_bind]
            simp only [avl.setParentIf, hw, ne_eq, not_false_eq_true, if_true, get_eq _ hwv, pure_bind]
            simp only [e3', pure_bind]
    · rw [if_neg hR, if_neg hR]
      exact ⟨pool1, i, stats, rfl, t1, f1'⟩

/-- **The way back up.** The subtree on side `d` was rebuilt as `near'`; the node takes it in and is
rebalanced. -/
theorem HeadAt.relink (h : HeadAt pool d near i far p) (hF : NodeFrame is pool pool1) (hi : i ∉ is)
    (hfar : ∀ j ∈ far.toList, j ∉ is) (ht : TreeAt pool1 near' x q) (hnd : (nodeOn d near' i far).toList.Nodup)
    (stats : AVLStatistics) :
    ∃ pool' root stats', avl.rebalance ((pool1.setChild d i x).reparent x i) i stats = pure (pool', root, stats') ∧
      (∀ l r, nodeOn d near' i far = node l i r → TreeAt pool' (BinTree.rebalance l i r) root p) ∧
      NodeFrame (nodeOn d near' i far).toList pool1 pool' := by
  obtain ⟨h2, f2⟩ := h.link hF hi hfar ht hnd
  have f2' : NodeFrame (nodeOn d near' i far).toList pool1 ((pool1.setChild d i x).reparent x i) := by
    refine f2.mono fun j hj => mem_nodeOn.2 ?_
    rcases List.mem_cons.1 hj with e | hj
    · exact Or.inr (Or.inl e)
    · exact Or.inl hj
  cases d with
  | left =>
    obtain ⟨pool', root, stats', e, t, f⟩ := rebalance_spec h2 hnd stats
    refine ⟨pool', root, stats', e, fun l r hlr => ?_, f2'.trans f⟩
    obtain ⟨rfl, -, rfl⟩ := BinTree.node.inj hlr
    exact t
  | right =>
    obtain ⟨pool', root, stats', e, t, f⟩ := rebalance_spec h2.flip hnd stats
    refine ⟨pool', root, stats', e, fun l r hlr => ?_, f2'.trans f⟩
    obtain ⟨rfl, -, rfl⟩ := BinTree.node.inj hlr
    exact t

end Rebalance

/-! ## `find_min`, `find_max`, `find` -/

section Search

variable {pool : PriceLevelPool cap} {t : BinTree Index} {x p : Index}

/-- The end of a tree on side `d`. -/
def BinTree.endOn : Dir → BinTree Index → Option Index
  | .left, t => t.first
  | .right, t => t.last

theorem follow_spec (d : Dir) : ∀ {near far : BinTree Index} {i x p : Index} {fuel : Nat},
    TreeAt pool (nodeOn d near i far) x p → near.height < fuel →
      ∃ j, avl.follow d pool fuel x = pure j ∧ BinTree.endOn d (nodeOn d near i far) = some j
  | _, _, _, _, _, 0, _, hf => by omega
  | near, far, i, x, p, fuel + 1, h, hf => by
    obtain ⟨rfl, hh, -⟩ := TreeAt.nodeOn_iff.1 h
    have hc : (pool.slots x).node.child d = (pool.node x).child d := rfl
    unfold avl.follow
    simp only [get_eq _ hh.valid, pure_bind, hc]
    match near, hh.near with
    | nil, hn =>
      have e : (pool.node x).child d = kInvalidPoolIndex := hn
      refine ⟨x, by simp [e], ?_⟩
      cases d <;> rfl
    | node l j r, hn =>
      have hne : (pool.node x).child d ≠ kInvalidPoolIndex := fun e => by
        have := hn.nil_iff.2 e
        cases this
      obtain ⟨n', f', hnf⟩ : ∃ n' f', node l j r = nodeOn d n' j f' := by
        cases d
        · exact ⟨l, r, rfl⟩
        · exact ⟨r, l, rfl⟩
      rw [hnf] at hn hf
      have hheight : n'.height < fuel := by
        cases d <;> (simp only [nodeOn, height_node] at hf; omega)
      obtain ⟨k, ek, hk⟩ := follow_spec d hn hheight
      refine ⟨k, by simp only [hne, ne_eq, not_false_eq_true, if_true, ek], ?_⟩
      rw [← hk, hnf]
      cases d <;> simp [BinTree.endOn, nodeOn, BinTree.first, BinTree.last]

theorem size_le_cap (h : TreeAt pool t x p) (hnd : t.toList.Nodup) : t.size ≤ cap.size := by
  rw [← length_toList]
  have hinj : (t.toList.map UInt32.toNat).Nodup := hnd.map fun a b e => UInt32.toNat_inj.1 e
  have hsub : ∀ n ∈ t.toList.map UInt32.toNat, n ∈ List.range cap.size := by
    intro n hn
    obtain ⟨i, hi, rfl⟩ := List.mem_map.1 hn
    exact List.mem_range.2 (h.valid i hi)
  have := (List.subperm_of_subset hinj hsub).length_le
  simpa using this

theorem height_le_cap (h : TreeAt pool t x p) (hnd : t.toList.Nodup) : t.height ≤ cap.size :=
  (height_le_size t).trans (size_le_cap h hnd)

/-- `find_min` and `find_max`: the end of the tree on side `d`, `kInvalidPoolIndex` for an empty tree. -/
theorem findEnd_spec (d : Dir) (h : TreeAt pool t x p) (hnd : t.toList.Nodup) :
    (if x = kInvalidPoolIndex then pure kInvalidPoolIndex else avl.follow d pool (cap.size + 1) x) =
      (pure ((BinTree.endOn d t).getD kInvalidPoolIndex) : Exec Index) := by
  match t, h with
  | nil, h =>
    rw [if_pos (show x = kInvalidPoolIndex from h)]
    cases d <;> rfl
  | node l i r, h =>
    have hx : x ≠ kInvalidPoolIndex := fun e => by cases h.nil_iff.2 e
    have hs := height_le_cap h hnd
    obtain ⟨n', f', hnf⟩ : ∃ n' f', node l i r = nodeOn d n' i f' := by
      cases d
      · exact ⟨l, r, rfl⟩
      · exact ⟨r, l, rfl⟩
    rw [hnf] at h hs
    have hheight : n'.height < cap.size + 1 := by
      cases d <;> (simp only [nodeOn, height_node] at hs; omega)
    obtain ⟨k, ek, hk⟩ := follow_spec d h hheight
    rw [if_neg hx, ek, hnf, hk]
    rfl

/-- **`find_min`**: the leftmost node. -/
theorem findMin_spec (h : TreeAt pool t x p) (hnd : t.toList.Nodup) :
    avl.findMin pool x = pure (t.first.getD kInvalidPoolIndex) := findEnd_spec .left h hnd

/-- **`find_max`**: the rightmost node. -/
theorem findMax_spec (h : TreeAt pool t x p) (hnd : t.toList.Nodup) :
    avl.findMax pool x = pure (t.last.getD kInvalidPoolIndex) := findEnd_spec .right h hnd

theorem findLoop_spec (price : UInt32) : ∀ {t : BinTree Index} {x p : Index} {fuel : Nat},
    TreeAt pool t x p → t.height < fuel →
      avl.findLoop pool price fuel x = pure ((BinTree.find? pool.priceOf price.toNat t).getD kInvalidPoolIndex)
  | _, _, _, 0, _, hf => by omega
  | nil, x, p, fuel + 1, h, _ => by
    unfold avl.findLoop
    rw [if_pos (show x = kInvalidPoolIndex from h)]
    rfl
  | node l i r, x, p, fuel + 1, h, hf => by
    obtain ⟨rfl, hh, -⟩ := TreeAt.node_iff.1 h
    simp only [height_node] at hf
    unfold avl.findLoop BinTree.find?
    rw [if_neg hh.valid.ne_invalid, get_eq _ hh.valid, pure_bind]
    by_cases e : price = (pool.slots x).price
    · rw [if_pos e, if_pos (by simp [PriceLevelPool.priceOf, e])]
      rfl
    · have e' : price.toNat ≠ pool.priceOf x := fun h => e (UInt32.toNat_inj.1 h)
      rw [if_neg e, if_neg e']
      by_cases hlt : price < (pool.slots x).price
      · have hlt' : price.toNat < pool.priceOf x := UInt32.lt_iff_toNat_lt.1 hlt
        rw [if_pos hlt, if_pos hlt']
        exact findLoop_spec price hh.near (by omega)
      · have hlt' : ¬ price.toNat < pool.priceOf x := fun h => hlt (UInt32.lt_iff_toNat_lt.2 h)
        rw [if_neg hlt, if_neg hlt']
        exact findLoop_spec price hh.far (by omega)

/-- **`find`**: search by price. -/
theorem find_spec (h : TreeAt pool t x p) (hnd : t.toList.Nodup) (price : UInt32) :
    avl.find pool x price = pure ((BinTree.find? pool.priceOf price.toNat t).getD kInvalidPoolIndex) := by
  have := height_le_cap h hnd
  exact findLoop_spec price h (by omega)

end Search

/-! ## `insert` -/

section Insert

variable {pool pool' : PriceLevelPool cap} {is : List Index}

theorem NodeFrame.priceOf_eq (h : NodeFrame is pool pool') : pool'.priceOf = pool.priceOf :=
  funext h.priceOf

/-- The new slot went into the subtree on side `d`, and the node takes that subtree back in. -/
theorem HeadAt.insert_near {pool1 : PriceLevelPool cap} {d : Dir} {near far : BinTree Index} {new i p y q : Index}
    (h : HeadAt pool d near i far p) (hnd : (nodeOn d near i far).toList.Nodup) (hni : new ∉ (nodeOn d near i far).toList)
    (hF : NodeFrame (new :: near.toList) pool pool1) (ht : TreeAt pool1 (BinTree.insert pool.priceOf new near) y q)
    (stats : AVLStatistics) :
    ∃ pool' root stats', ((pool1.setChild d i y).get y >>= fun _ =>
        avl.rebalance ((pool1.setChild d i y).setParent y i) i stats) = pure (pool', root, stats') ∧
      (∀ l r, nodeOn d (BinTree.insert pool.priceOf new near) i far = node l i r →
        TreeAt pool' (BinTree.rebalance l i r) root p) ∧
      NodeFrame (new :: (nodeOn d near i far).toList) pool pool' := by
  obtain ⟨hnear, hfar, hin, hif, hdis⟩ := nodup_nodeOn.1 hnd
  rw [mem_nodeOn, not_or, not_or] at hni
  obtain ⟨hnn, hne, hnf⟩ := hni
  have hi : i ∉ new :: near.toList := List.not_mem_cons_of_ne_of_not_mem (Ne.symm hne) hin
  have hdis' : ∀ j ∈ far.toList, j ∉ new :: near.toList := by
    intro j hj hj'
    rcases List.mem_cons.1 hj' with rfl | hj'
    · exact hnf hj
    · exact hdis j hj' hj
  have hnd' : (nodeOn d (BinTree.insert pool.priceOf new near) i far).toList.Nodup := by
    refine nodup_nodeOn.2 ⟨(insert_perm new near).nodup_iff.2 (List.nodup_cons.2 ⟨hnn, hnear⟩), hfar, ?_, hif, ?_⟩
    · exact fun hm => hi (List.mem_cons.2 (mem_insert.1 hm))
    · exact fun j hj hj' => hdis' j hj' (List.mem_cons.2 (mem_insert.1 hj))
  have hm : new ∈ (BinTree.insert pool.priceOf new near).toList := mem_insert.2 (Or.inl rfl)
  have hy : y ≠ kInvalidPoolIndex := by
    intro e
    rw [ht.nil_iff.2 e] at hm
    cases hm
  obtain ⟨pool', root, stats', e, t, f⟩ := h.relink hF hi hdis' ht hnd' stats
  refine ⟨pool', root, stats', ?_, t, (hF.mono ?_).trans (f.mono ?_)⟩
  · rw [get_eq _ (ht.valid y (ht.root_mem hy)), pure_bind, ← e]
    unfold PriceLevelPool.reparent
    rw [if_neg hy]
  · intro j hj
    rcases List.mem_cons.1 hj with rfl | hj
    · exact List.mem_cons_self
    · exact List.mem_cons_of_mem _ (mem_nodeOn.2 (Or.inl hj))
  · intro j hj
    rcases mem_nodeOn.1 hj with hj | hj
    · rcases mem_insert.1 hj with rfl | hj
      · exact List.mem_cons_self
      · exact List.mem_cons_of_mem _ (mem_nodeOn.2 (Or.inl hj))
    · exact List.mem_cons_of_mem _ (mem_nodeOn.2 (Or.inr hj))

theorem insertRec_spec {new : Index} (hv : Valid cap new) : ∀ {t : BinTree Index} {pool : PriceLevelPool cap}
    {x p : Index} {fuel : Nat} (stats : AVLStatistics), TreeAt pool t x p → t.toList.Nodup → new ∉ t.toList →
      t.height < fuel → ∃ pool' root stats', avl.insertRec new fuel pool x stats = pure (pool', root, stats') ∧
        TreeAt pool' (BinTree.insert pool.priceOf new t) root (if t = nil then kInvalidPoolIndex else p) ∧
        NodeFrame (new :: t.toList) pool pool'
  | _, _, _, _, 0, _, _, _, _, hf => by omega
  | nil, pool, x, p, fuel + 1, stats, h, _, _, _ => by
    have hx : x = kInvalidPoolIndex := h
    have hn : new ≠ kInvalidPoolIndex := hv.ne_invalid
    unfold avl.insertRec
    simp only [hn, ne_eq, not_false_eq_true, decide_true, tradecoreAssert_true, pure_bind, hx, if_true, update_eq _ hv]
    refine ⟨_, _, _, rfl, ?_, NodeFrame.withNode pool (by simp) _⟩
    refine TreeAt.node_iff.2 ⟨rfl, ⟨hv, ?_, ?_, ?_⟩, ?_⟩ <;> rw [node_withNode, if_pos rfl] <;> rfl
  | node l i r, pool, x, p, fuel + 1, stats, h, hnd, hni, hf => by
    have hn : new ≠ kInvalidPoolIndex := hv.ne_invalid
    obtain ⟨rfl, hh, -⟩ := TreeAt.node_iff.1 h
    simp only [height_node] at hf
    obtain ⟨hl, hr, -, -, -⟩ := nodup_nodeOn (d := .left).1 hnd
    have hnl : new ∉ l.toList := fun hm => hni (mem_nodeOn (d := .left).2 (Or.inl hm))
    have hnr : new ∉ r.toList := fun hm => hni (mem_nodeOn (d := .left).2 (Or.inr (Or.inr hm)))
    have hkey : ((pool.slots new).price < (pool.slots x).price) = (pool.priceOf new < pool.priceOf x) :=
      propext UInt32.lt_iff_toNat_lt
    unfold avl.insertRec
    simp only [hn, ne_eq, not_false_eq_true, decide_true, tradecoreAssert_true, pure_bind, hh.valid.ne_invalid, if_false,
      get_eq _ hh.valid, get_eq _ hv, hkey, BinTree.insert, reduceCtorEq]
    by_cases hlt : pool.priceOf new < pool.priceOf x
    · simp only [hlt, if_true]
      obtain ⟨pool1, y, stats1, e1, t1, f1⟩ := insertRec_spec hv { stats with insertions := stats.insertions + 1 }
        hh.near hl hnl (by omega : l.height < fuel)
      obtain ⟨pool3, root, stats3, e3, t3, f3⟩ := hh.insert_near hnd hni f1 t1 stats1
      refine ⟨pool3, root, stats3, ?_, t3 _ _ rfl, f3⟩
      have e1' : avl.insertRec new fuel pool (pool.slots x).node.left { stats with insertions := stats.insertions + 1 } =
          pure (pool1, y, stats1) := e1
      rw [e1', pure_bind]
      exact e3
    · simp only [hlt, if_false]
      obtain ⟨pool1, y, stats1, e1, t1, f1⟩ := insertRec_spec hv { stats with insertions := stats.insertions + 1 }
        hh.far hr hnr (by omega : r.height < fuel)
      obtain ⟨pool3, root, stats3, e3, t3, f3⟩ := hh.flip.insert_near hnd hni f1 t1 stats1
      refine ⟨pool3, root, stats3, ?_, t3 _ _ rfl, f3⟩
      have e1' : avl.insertRec new fuel pool (pool.slots x).node.right { stats with insertions := stats.insertions + 1 } =
          pure (pool1, y, stats1) := e1
      rw [e1', pure_bind]
      exact e3

/-- **`insert`** of a slot that is not in the tree. -/
theorem insert_spec {pool : PriceLevelPool cap} {t : BinTree Index} {x p new : Index} (h : TreeAt pool t x p)
    (hnd : t.toList.Nodup) (hv : Valid cap new) (hni : new ∉ t.toList) (stats : AVLStatistics) :
    ∃ pool' root stats', avl.insert pool x new stats = pure (pool', root, stats') ∧
      TreeAt pool' (BinTree.insert pool.priceOf new t) root (if t = nil then kInvalidPoolIndex else p) ∧
      NodeFrame (new :: t.toList) pool pool' := by
  have := height_le_cap h hnd
  exact insertRec_spec hv stats h hnd hni (by omega)

end Insert

/-! ## `remove` -/

section Remove

variable {pool pool' pool1 : PriceLevelPool cap} {is : List Index}

/-- Both child links of slot `i` are `kInvalidPoolIndex`. -/
def Unlinked (pool : PriceLevelPool cap) (i : Index) : Prop :=
  (pool.node i).left = kInvalidPoolIndex ∧ (pool.node i).right = kInvalidPoolIndex

theorem Unlinked.frame {i : Index} (h : Unlinked pool i) (hF : NodeFrame is pool pool') (hi : i ∉ is) :
    Unlinked pool' i := by
  unfold Unlinked
  rw [hF.node_eq hi]
  exact h

/-- The last two writes of `remove`. -/
def PriceLevelPool.unlink (pool : PriceLevelPool cap) (i : Index) : PriceLevelPool cap :=
  (pool.setRight i kInvalidPoolIndex).setLeft i kInvalidPoolIndex

theorem node_unlink (pool : PriceLevelPool cap) (i j : Index) :
    (pool.unlink i).node j =
      if j = i then { pool.node i with left := kInvalidPoolIndex, right := kInvalidPoolIndex } else pool.node j := by
  unfold PriceLevelPool.unlink PriceLevelPool.setLeft PriceLevelPool.setRight
  by_cases h : j = i
  · simp only [node_setChild, h, if_true, AVLNode.withChild]
  · simp only [node_setChild, h, if_false]

theorem unlinked_unlink (pool : PriceLevelPool cap) (i : Index) : Unlinked (pool.unlink i) i := by
  unfold Unlinked
  rw [node_unlink, if_pos rfl]
  exact ⟨rfl, rfl⟩

theorem NodeFrame.unlink (pool : PriceLevelPool cap) {i : Index} (hi : i ∈ is) : NodeFrame is pool (pool.unlink i) :=
  (NodeFrame.setChild pool .right _ hi).trans (NodeFrame.setChild _ .left _ hi)

/-- Removal of a root with at most one subtree: the subtree moves up. -/
theorem remove_root_spec {d : Dir} {sub : BinTree Index} {i p : Index} (h : HeadAt pool d nil i sub p)
    (hnd : (nodeOn d nil i sub).toList.Nodup) :
    TreeAt ((pool.reparent ((pool.node i).child d.flip) p).unlink i) sub ((pool.node i).child d.flip) p ∧
      NodeFrame (nodeOn d nil i sub).toList pool ((pool.reparent ((pool.node i).child d.flip) p).unlink i) := by
  obtain ⟨-, hsub, -, hi, -⟩ := nodup_nodeOn.1 hnd
  refine ⟨(h.far.reparent hsub p).congr fun j hj => ?_, ?_⟩
  · have hji : j ≠ i := by
      rintro rfl
      exact hi hj
    rw [node_unlink, if_neg hji]
  · refine (NodeFrame.reparent pool p fun hx => ?_).trans (NodeFrame.unlink _ (mem_nodeOn.2 (Or.inr (Or.inl rfl))))
    exact mem_nodeOn.2 (Or.inr (Or.inr (h.far.root_mem hx)))

/-- The writes that put `s` in the place of `i`, with right subtree `y`. -/
def PriceLevelPool.splice (pool : PriceLevelPool cap) (i s y : Index) : PriceLevelPool cap :=
  let q := ((pool.setLeft s (pool.node i).left).setRight s y).setParent s (pool.node i).parent
  ((q.reparent (pool.node i).left s).reparent y s).unlink i

/-- **Removal of a root with two subtrees**, after the successor `s` was taken out of the right one:
`s` takes the place of `i`. -/
theorem splice_spec {l r r' : BinTree Index} {i s y p q : Index} (h : HeadAt pool .left l i r p)
    (hnd : (node l i r).toList.Nodup) (hs : s ∈ r.toList) (hF : NodeFrame r.toList pool pool1)
    (ht : TreeAt pool1 r' y q) (hnd' : r'.toList.Nodup) (hr' : ∀ j ∈ r'.toList, j ∈ r.toList ∧ j ≠ s) :
    HeadAt (pool1.splice i s y) .left l s r' p ∧ Unlinked (pool1.splice i s y) i ∧
      NodeFrame (node l i r).toList pool1 (pool1.splice i s y) := by
  obtain ⟨hl, -, hil, hir, hlr⟩ := nodup_nodeOn (d := .left).1 hnd
  have hsi : s ≠ i := by rintro rfl; exact hir hs
  have hsl : s ∉ l.toList := fun e => hlr s e hs
  have ni1 : pool1.node i = pool.node i := hF.node_eq hir
  obtain ⟨x, hx⟩ : ∃ x, x = (pool.node i).left := ⟨_, rfl⟩
  have htl : TreeAt pool l x i := by rw [hx]; exact h.near
  have hxl : x ≠ kInvalidPoolIndex → x ∈ l.toList := htl.root_mem
  have hyr : y ≠ kInvalidPoolIndex → y ∈ r'.toList := ht.root_mem
  have hsx : ¬ (s = x ∧ x ≠ kInvalidPoolIndex) := fun e => hsl (by rw [e.1]; exact hxl e.2)
  have hsy : ¬ (s = y ∧ y ≠ kInvalidPoolIndex) := fun e => (hr' y (hyr e.2)).2 e.1.symm
  have hix : ¬ (i = x ∧ x ≠ kInvalidPoolIndex) := fun e => hil (by rw [e.1]; exact hxl e.2)
  have hiy : ¬ (i = y ∧ y ≠ kInvalidPoolIndex) := fun e => hir (by rw [e.1]; exact (hr' y (hyr e.2)).1)
  -- the node `s` after the writes, and the two subtrees it takes over
  have ns : (pool1.splice i s y).node s =
      { pool1.node s with left := x, right := y, parent := p } := by
    simp [PriceLevelPool.splice, PriceLevelPool.setLeft, PriceLevelPool.setRight, node_unlink, node_reparent,
      node_setParent, node_setChild, ni1, ← hx, hsx, hsy, hsi, h.parent, AVLNode.withChild]
  have hlt : TreeAt (pool1.splice i s y) l x s := by
    refine (htl.frame hF fun j hj => hlr j hj).move hl (fun j hj hjx => ?_) (fun hne => ?_)
    · have hji : j ≠ i := fun e => hil (e ▸ hj)
      have hjs : j ≠ s := fun e => hsl (e ▸ hj)
      have hjy : ¬ (j = y ∧ y ≠ kInvalidPoolIndex) := fun e => hlr j hj (by rw [e.1]; exact (hr' y (hyr e.2)).1)
      simp [PriceLevelPool.splice, PriceLevelPool.setLeft, PriceLevelPool.setRight, node_unlink, node_reparent,
        node_setParent, node_setChild, ni1, ← hx, hji, hjs, hjx, hjy]
    · have hx0 : x ≠ kInvalidPoolIndex := fun e => hne (htl.nil_iff.2 e)
      have hxi : x ≠ i := fun e => hil (e ▸ hxl hx0)
      have hxs : x ≠ s := fun e => hsl (e ▸ hxl hx0)
      have hxy : ¬ (x = y ∧ y ≠ kInvalidPoolIndex) := fun e =>
        hlr x (hxl hx0) (by rw [e.1]; exact (hr' y (hyr e.2)).1)
      simp [PriceLevelPool.splice, PriceLevelPool.setLeft, PriceLevelPool.setRight, node_unlink, node_reparent,
        node_setParent, node_setChild, ni1, ← hx, hx0, hxi, hxs, hxy]
  have hrt : TreeAt (pool1.splice i s y) r' y s := by
    refine ht.move hnd' (fun j hj hjy => ?_) (fun hne => ?_)
    · have hji : j ≠ i := fun e => hir (e ▸ (hr' j hj).1)
      have hjs : j ≠ s := (hr' j hj).2
      have hjx : ¬ (j = x ∧ x ≠ kInvalidPoolIndex) := fun e =>
        hlr x (hxl e.2) (by rw [← e.1]; exact (hr' j hj).1)
      simp [PriceLevelPool.splice, PriceLevelPool.setLeft, PriceLevelPool.setRight, node_unlink, node_reparent,
        node_setParent, node_setChild, ni1, ← hx, hji, hjs, hjx, hjy]
    · have hy0 : y ≠ kInvalidPoolIndex := fun e => hne (ht.nil_iff.2 e)
      have hy := hr' y (hyr hy0)
      have hyi : y ≠ i := fun e => hir (e ▸ hy.1)
      have hyx : ¬ (y = x ∧ x ≠ kInvalidPoolIndex) := fun e => hlr x (hxl e.2) (by rw [← e.1]; exact hy.1)
      simp [PriceLevelPool.splice, PriceLevelPool.setLeft, PriceLevelPool.setRight, node_unlink, node_reparent,
        node_setParent, node_setChild, ni1, ← hx, hy0, hyi, hyx, hy.2]
  refine ⟨⟨h.far.valid s hs, by rw [ns], by rw [ns]; exact hlt, by rw [ns]; exact hrt⟩, unlinked_unlink _ i, ?_⟩
  have hsm : s ∈ (node l i r).toList := by simp [hs]
  have him : i ∈ (node l i r).toList := by simp
  unfold PriceLevelPool.splice
  refine (((((NodeFrame.setChild pool1 .left _ hsm).trans (NodeFrame.setChild _ .right _ hsm)).trans
    (NodeFrame.withNode _ hsm _)).trans (NodeFrame.reparent _ _ fun hx0 => ?_)).trans
    (NodeFrame.reparent _ _ fun hy0 => ?_)).trans (NodeFrame.unlink _ him)
  · rw [ni1, ← hx] at hx0 ⊢
    simp [hxl hx0]
  · simp [(hr' y (hyr hy0)).1]

/-- What one call of `remove` does to the tree `t` under `x` and to the slot `target`. -/
def RemoveSpec (t : BinTree Index) (p target : Index) (pool : PriceLevelPool cap)
    (res : Exec (PriceLevelPool cap × Index × AVLStatistics)) : Prop :=
  ∃ pool' root stats', res = pure (pool', root, stats') ∧
    TreeAt pool' (BinTree.erase pool.priceOf t (pool.priceOf target)) root p ∧
    NodeFrame t.toList pool pool' ∧ Unlinked pool' target

/-- Erasing the key of one node takes that node away. -/
theorem mem_of_mem_erase {t : BinTree Index} {target j : Index} (hs : Sorted pool.priceOf t)
    (hj : j ∈ (BinTree.erase pool.priceOf t (pool.priceOf target)).toList) : j ∈ t.toList ∧ j ≠ target := by
  obtain ⟨hj, hne⟩ := (mem_erase hs).1 hj
  exact ⟨hj, fun e => hne (by rw [e])⟩

/-- The target left the subtree on side `d`, and the node takes that subtree back in. -/
theorem HeadAt.erase_near {d : Dir} {near far : BinTree Index} {i p y q target : Index} (h : HeadAt pool d near i far p)
    (hnd : (nodeOn d near i far).toList.Nodup) (hs : Sorted pool.priceOf near) (hm : target ∈ near.toList)
    (hF : NodeFrame near.toList pool pool1) (ht : TreeAt pool1 (BinTree.erase pool.priceOf near (pool.priceOf target)) y q)
    (hu : Unlinked pool1 target) (stats : AVLStatistics) :
    ∃ pool' root stats', avl.rebalance ((pool1.setChild d i y).reparent y i) i stats = pure (pool', root, stats') ∧
      (∀ l r, nodeOn d (BinTree.erase pool.priceOf near (pool.priceOf target)) i far = node l i r →
        TreeAt pool' (BinTree.rebalance l i r) root p) ∧
      NodeFrame (nodeOn d near i far).toList pool pool' ∧ Unlinked pool' target := by
  obtain ⟨-, hfar, hin, hif, hdis⟩ := nodup_nodeOn.1 hnd
  have hsub : ∀ j ∈ (BinTree.erase pool.priceOf near (pool.priceOf target)).toList, j ∈ near.toList ∧ j ≠ target :=
    fun _ => mem_of_mem_erase hs
  have hnd' : (nodeOn d (BinTree.erase pool.priceOf near (pool.priceOf target)) i far).toList.Nodup :=
    nodup_nodeOn.2 ⟨(hs.erase _).nodup, hfar, fun e => hin (hsub i e).1, hif, fun j hj => hdis j (hsub j hj).1⟩
  obtain ⟨pool', root, stats', e, t, f⟩ := h.relink hF hin (fun j hj hj' => hdis j hj' hj) ht hnd' stats
  refine ⟨pool', root, stats', e, t, (hF.mono ?_).trans (f.mono ?_), hu.frame f ?_⟩
  · exact fun j hj => mem_nodeOn.2 (Or.inl hj)
  · exact fun j hj => mem_nodeOn.2 ((mem_nodeOn.1 hj).imp_left fun hj => (hsub j hj).1)
  · rw [mem_nodeOn, not_or, not_or]
    exact ⟨fun e => (hsub _ e).2 rfl, fun e => hin (e ▸ hm), hdis target hm⟩

/-- The root's successor `s` left the right subtree and takes the root's place. -/
theorem HeadAt.erase_root {l r : BinTree Index} {i s p y q : Index} (h : HeadAt pool .left l i r p)
    (hnd : (node l i r).toList.Nodup) (hs : Sorted pool.priceOf r) (hm : s ∈ r.toList) (hF : NodeFrame r.toList pool pool1)
    (ht : TreeAt pool1 (BinTree.erase pool.priceOf r (pool.priceOf s)) y q) (stats : AVLStatistics) :
    ∃ pool' root stats', avl.rebalance (pool1.splice i s y) s stats = pure (pool', root, stats') ∧
      TreeAt pool' (BinTree.rebalance l s (BinTree.erase pool.priceOf r (pool.priceOf s))) root p ∧
      NodeFrame (node l i r).toList pool pool' ∧ Unlinked pool' i := by
  obtain ⟨hl, -, hil, hir, hlr⟩ := nodup_nodeOn (d := .left).1 hnd
  have hsub : ∀ j ∈ (BinTree.erase pool.priceOf r (pool.priceOf s)).toList, j ∈ r.toList ∧ j ≠ s :=
    fun _ => mem_of_mem_erase hs
  obtain ⟨h2, u2, f2⟩ := splice_spec h hnd hm hF ht (hs.erase _).nodup hsub
  have hnd' : (node l s (BinTree.erase pool.priceOf r (pool.priceOf s))).toList.Nodup :=
    (nodup_nodeOn (d := .left)).2 ⟨hl, (hs.erase _).nodup, fun e => hlr s e hm, fun e => (hsub s e).2 rfl,
      fun j hj hj' => hlr j hj (hsub j hj').1⟩
  obtain ⟨pool', root, stats', e, t, f⟩ := rebalance_spec h2 hnd' stats
  refine ⟨pool', root, stats', e, t, ((hF.mono ?_).trans f2).trans (f.mono ?_), u2.frame f ?_⟩
  · intro j hj
    simp only [toList_node l i, List.mem_append, List.mem_cons, hj, or_true]
  · intro j hj
    simp only [toList_node l, List.mem_append, List.mem_cons] at hj ⊢
    rcases hj with hj | rfl | hj
    · exact Or.inl hj
    · exact Or.inr (Or.inr hm)
    · exact Or.inr (Or.inr (hsub j hj).1)
  · simp only [toList_node l, List.mem_append, List.mem_cons, not_or]
    exact ⟨hil, fun e => hir (e ▸ hm), fun e => hir (hsub _ e).1⟩

theorem removeRec_spec : ∀ {t : BinTree Index} {pool : PriceLevelPool cap} {x p target : Index} {fuel : Nat}
    (stats : AVLStatistics), TreeAt pool t x p → Sorted pool.priceOf t → target ∈ t.toList → t.height < fuel →
      RemoveSpec t p target pool (avl.removeRec fuel pool x target stats)
  | _, _, _, _, _, 0, _, _, _, _, hf => by omega
  | nil, _, _, _, _, _ + 1, _, _, _, hm, _ => by cases hm
  | node l i r, pool, x, p, target, fuel + 1, stats, h, hs, hm, hf => by
    have htv : Valid cap target := h.valid target hm
    obtain ⟨rfl, hh, -⟩ := TreeAt.node_iff.1 h
    obtain ⟨hsl, hsr, hlx, hxr⟩ := sorted_node.1 hs
    have hnd := hs.nodup
    obtain ⟨hndl, hndr, hxl', hxr', hlr⟩ := nodup_nodeOn (d := .left).1 hnd
    simp only [height_node] at hf
    simp only [toList_node, List.mem_append, List.mem_cons] at hm
    have hlt : ((pool.slots target).price < (pool.slots x).price) = (pool.priceOf target < pool.priceOf x) :=
      propext UInt32.lt_iff_toNat_lt
    have hgt : ((pool.slots target).price > (pool.slots x).price) = (pool.priceOf x < pool.priceOf target) :=
      propext UInt32.lt_iff_toNat_lt
    unfold avl.removeRec RemoveSpec
    simp only [hh.valid.ne_invalid, if_false, get_eq _ hh.valid, get_eq _ htv, pure_bind, hlt, hgt, BinTree.erase]
    rcases hm with hm | rfl | hm
    · -- in the left subtree
      have hk := hlx target hm
      obtain ⟨pool1, y, stats1, e1, t1, f1, u1⟩ := removeRec_spec { stats with deletions := stats.deletions + 1 }
        hh.near hsl hm (by omega : l.height < fuel)
      obtain ⟨pool3, root, stats3, e3, t3, f3, u3⟩ := hh.erase_near hnd hsl hm f1 t1 u1 stats1
      refine ⟨pool3, root, stats3, ?_, ?_, f3, u3⟩
      · have e1' : avl.removeRec fuel pool (pool.slots x).node.left target { stats with deletions := stats.deletions + 1 } =
            pure (pool1, y, stats1) := e1
        simp only [hk, if_true, e1', pure_bind, t1.setParentIf_eq]
        exact e3
      · rw [if_pos hk]
        exact t3 _ _ rfl
    · -- the root itself
      simp only [lt_irrefl, if_false, decide_true, tradecoreAssert_true, pure_bind]
      cases l with
      | nil =>
        have hleft : (pool.slots target).node.left = kInvalidPoolIndex := hh.near
        have hpar : (pool.slots target).node.parent = p := hh.parent
        obtain ⟨t1, f1⟩ := remove_root_spec hh hnd
        refine ⟨_, (pool.slots target).node.right, { stats with deletions := stats.deletions + 1 }, ?_, t1, f1,
          unlinked_unlink _ _⟩
        have e1 : avl.setParentIf pool (pool.slots target).node.right p =
            pure (pool.reparent (pool.slots target).node.right p) := hh.far.setParentIf_eq pool p
        simp only [hleft, if_true, hpar, e1, pure_bind]
        rfl
      | node l1 a l2 =>
        have hleft : (pool.slots target).node.left ≠ kInvalidPoolIndex := fun e => by cases hh.near.nil_iff.2 e
        have hpar : (pool.slots target).node.parent = p := hh.parent
        simp only [hleft, if_false]
        cases r with
        | nil =>
          have hright : (pool.slots target).node.right = kInvalidPoolIndex := hh.far
          obtain ⟨t1, f1⟩ := remove_root_spec hh.flip hnd
          refine ⟨_, (pool.slots target).node.left, { stats with deletions := stats.deletions + 1 }, ?_, t1, f1,
            unlinked_unlink _ _⟩
          have hlv : Valid cap (pool.slots target).node.left := hh.near.valid _ (hh.near.root_mem hleft)
          simp only [hright, if_true, get_eq _ hlv, pure_bind, hpar]
          have hrep : pool.reparent (pool.slots target).node.left p = pool.setParent (pool.slots target).node.left p :=
            if_neg hleft
          rw [← hrep]
          rfl
        | node r1 b r2 =>
          have hright : (pool.slots target).node.right ≠ kInvalidPoolIndex := fun e => by cases hh.far.nil_iff.2 e
          obtain ⟨s, hs⟩ : ∃ s, (node r1 b r2).first = some s := by
            cases e : (node r1 b r2).first with
            | none => cases first_eq_none.1 e
            | some s => exact ⟨s, rfl⟩
          have hsm : s ∈ (node r1 b r2).toList := by
            rw [first_eq_head?] at hs
            exact List.mem_of_mem_head? hs
          have emin : avl.findMin pool (pool.slots target).node.right = pure s := by
            have := findMin_spec hh.far hndr
            rw [hs] at this
            exact this
          obtain ⟨pool1, y, stats1, e1, t1, f1, -⟩ := removeRec_spec
            { stats with deletions := stats.deletions + 1 - 1 } hh.far hsr hsm (by omega : (node r1 b r2).height < fuel)
          obtain ⟨pool3, root, stats3, e3, t3, f3, u3⟩ := hh.erase_root hnd hsr hsm f1 t1 stats1
          refine ⟨pool3, root, stats3, ?_, ?_, f3, u3⟩
          · have e1' : avl.removeRec fuel pool (pool.slots target).node.right s
                { stats with deletions := stats.deletions + 1 - 1 } = pure (pool1, y, stats1) := e1
            have hsv : Valid cap s := hh.far.valid s hsm
            have hts : target ≠ s := fun e => hxr' (e ▸ hsm)
            have eroot : ((((pool1.setLeft s (pool1.node target).left).setRight s y).setParent s
                (pool1.node target).parent).node target).left = (pool1.node target).left := by
              simp [PriceLevelPool.setLeft, PriceLevelPool.setRight, node_setParent, node_setChild, hts]
            have eleft : (pool1.node target).left = (pool.node target).left := by rw [f1.node_eq hxr']
            have e2 : ∀ q : PriceLevelPool cap, avl.setParentIf q (pool1.node target).left s =
                pure (q.reparent (pool1.node target).left s) := fun q => by
              rw [eleft]
              exact hh.near.setParentIf_eq q s
            simp only [hright, if_false, emin, pure_bind, e1', get_eq _ hsv, eroot, e2, t1.setParentIf_eq]
            exact e3
          · rw [eraseRoot_of_first _ (by simp) hs]
            exact t3
    · -- in the right subtree
      have hk := hxr target hm
      have hk' : ¬ pool.priceOf target < pool.priceOf x := lt_asymm hk
      obtain ⟨pool1, y, stats1, e1, t1, f1, u1⟩ := removeRec_spec { stats with deletions := stats.deletions + 1 }
        hh.far hsr hm (by omega : r.height < fuel)
      obtain ⟨pool3, root, stats3, e3, t3, f3, u3⟩ := hh.flip.erase_near hnd hsr hm f1 t1 u1 stats1
      refine ⟨pool3, root, stats3, ?_, ?_, f3, u3⟩
      · have e1' : avl.removeRec fuel pool (pool.slots x).node.right target { stats with deletions := stats.deletions + 1 } =
            pure (pool1, y, stats1) := e1
        simp only [hk, hk', if_true, if_false, e1', pure_bind, t1.setParentIf_eq]
        exact e3
      · rw [if_neg hk', if_pos hk]
        exact t3 _ _ rfl

/-- **`remove`** of a slot in the tree. -/
theorem remove_spec {t : BinTree Index} {x p target : Index} (h : TreeAt pool t x p) (hs : Sorted pool.priceOf t)
    (hm : target ∈ t.toList) (stats : AVLStatistics) :
    RemoveSpec t p target pool (avl.remove pool x target stats) := by
  have := height_le_cap h hs.nodup
  exact removeRec_spec stats h hs hm (by omega)

end Remove

/-- In a balanced tree `balance_factor` is -1, 0 or 1 at every node. -/
theorem TreeAt.balanceFactor_bound {pool : PriceLevelPool cap} : ∀ {t : BinTree Index} {x p : Index},
    TreeAt pool t x p → t.Balanced → ∀ i ∈ t.toList,
      ∃ b, avl.balanceFactor pool i = pure b ∧ (b = -1 ∨ b = 0 ∨ b = 1)
  | nil, _, _, _, _, i, hi => by cases hi
  | node l j r, x, p, h, ⟨hl, hr, h1, h2⟩, i, hi => by
    obtain ⟨rfl, hh, -⟩ := TreeAt.node_iff.1 h
    simp only [toList_node, List.mem_append, List.mem_cons] at hi
    rcases hi with hi | rfl | hi
    · exact hh.near.balanceFactor_bound hl i hi
    · refine ⟨_, hh.balanceFactor_eq, ?_⟩
      rw [balance_node]
      omega
    · exact hh.far.balanceFactor_bound hr i hi

/-- **`update_stats_height`** records the height of the tree. -/
theorem updateStatsHeight_eq {pool : PriceLevelPool cap} {t : BinTree Index} {x p : Index} (h : TreeAt pool t x p)
    (stats : AVLStatistics) : ∃ stats', avl.updateStatsHeight pool x stats = pure stats' ∧
      stats'.treeHeight = UInt32.ofNat t.height := by
  unfold avl.updateStatsHeight
  rw [h.height_eq, pure_bind]
  refine ⟨_, rfl, ?_⟩
  split <;> rfl

end TradeCore
