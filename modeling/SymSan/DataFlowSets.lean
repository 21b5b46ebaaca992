import Mathlib.Algebra.Order.Ring.Nat
import Mathlib.Data.Finset.Card
import Mathlib.Data.Finset.Range
import SymSan.SuccessorRings

/-!
# `UnionFind`

The disjoint sets of input bytes that occur together. Besides the parents, every
element has a successor, and the successors of a set form one ring: merging two sets
exchanges the successors of their roots, and a set is listed by following its ring.
Searching for a root points every element on the way at its grandparent.
-/

namespace DataFlowSets

open SuccessorRings
open Function (update update_of_ne update_self)
open Relation (EqvGen)

lemma eqvGen_le {base E : Nat → Nat → Prop} (equivalence : Equivalence E)
    (contains : ∀ u v, base u v → E u v) {u v : Nat} (h : EqvGen base u v) : E u v :=
  equivalence.eqvGen_iff.mp (h.mono contains)

structure UnionFind where
  size : Nat
  parent : Nat → Nat
  next : Nat → Nat
  rank : Nat → Nat

def reset (size : Nat) : UnionFind := ⟨size, fun i => i, fun i => i, fun _ => 0⟩

/-- The loop of `find`; as many rounds as there are elements are enough. -/
def findLoop : Nat → (Nat → Nat) → Nat → (Nat → Nat) × Nat
  | 0, parent, x => (parent, x)
  | fuel + 1, parent, x =>
    if x = parent x then (parent, x)
    else findLoop fuel (update parent x (parent (parent x))) (parent x)

/-- `find`, for an element; the caller has checked it. -/
def UnionFind.find (uf : UnionFind) (x : Nat) : Nat × UnionFind :=
  let (parent, root) := findLoop uf.size uf.parent x
  (root, { uf with parent := parent })

/-- The two rings become one. -/
def UnionFind.join (uf : UnionFind) (x y : Nat) : UnionFind :=
  { uf with next := exchange uf.next x y }

/-- The root of lower rank gets the other one as its parent. -/
def UnionFind.hang (uf : UnionFind) (x y : Nat) : Nat × UnionFind :=
  if uf.rank x < uf.rank y then (y, { uf with parent := update uf.parent x y })
  else if uf.rank y < uf.rank x then (x, { uf with parent := update uf.parent y x })
  else (x, { uf with
    parent := update uf.parent y x
    rank := update uf.rank x (uf.rank x + 1) })

/-- `merge`; no result stands for `INVALID`. -/
def UnionFind.merge (uf : UnionFind) (x y : Nat) : Option (Nat × UnionFind) :=
  if uf.size ≤ x ∨ uf.size ≤ y then none
  else
    let (xRoot, uf) := uf.find x
    let (yRoot, uf) := uf.find y
    if xRoot = yRoot then some (xRoot, uf) else some ((uf.join xRoot yRoot).hang xRoot yRoot)

/-- `get_set`: the set that is passed in is cleared first. -/
def UnionFind.getSet (uf : UnionFind) (x : Nat) : Option (List Nat) :=
  if uf.size ≤ x then none else some (x :: walkRing uf.next x uf.size x)

/-! ## Forests -/

/-- The parents of the elements below `size` lead to one root in every class, along
rising ranks. -/
structure Forest (size : Nat) (parent rank : Nat → Nat) (same : Nat → Nat → Prop) : Prop where
  inside : ∀ x, x < size → parent x < size
  up : ∀ x, x < size → parent x ≠ x → rank x < rank (parent x)
  together : ∀ x, x < size → same x (parent x)
  root : ∀ x y, x < size → y < size → parent x = x → parent y = y → same x y → x = y

section Forest

variable {size : Nat} {parent rank : Nat → Nat} {same : Nat → Nat → Prop} {x y : Nat}

lemma Forest.split (forest : Forest size parent rank same) (equivalence : Equivalence same)
    (inside : x < size) (inner : parent x ≠ x) :
    Forest size (update parent x (parent (parent x))) rank same ∧
      ∀ r, parent r = r → update parent x (parent (parent x)) r = r := by
  have insideP := forest.inside x inside
  have rising : rank x < rank (parent (parent x)) := by
    have first := forest.up x inside inner
    by_cases top : parent (parent x) = parent x
    · rw [top]
      exact first
    · exact Nat.lt_trans first (forest.up _ insideP top)
  have notSelf : parent (parent x) ≠ x := by
    intro self
    rw [self] at rising
    exact Nat.lt_irrefl _ rising
  have roots : ∀ r, update parent x (parent (parent x)) r = r → parent r = r := by
    intro r isRoot
    by_cases here : r = x
    · rw [here, update_self] at isRoot
      exact absurd isRoot notSelf
    · rw [update_of_ne here] at isRoot
      exact isRoot
  refine ⟨⟨fun z lt => ?_, fun z lt inner' => ?_, fun z lt => ?_, ?_⟩, fun r isRoot => ?_⟩
  · by_cases here : z = x
    · rw [here, update_self]
      exact forest.inside _ insideP
    · rw [update_of_ne here]
      exact forest.inside z lt
  · by_cases here : z = x
    · rw [here, update_self]
      exact rising
    · rw [update_of_ne here] at inner' ⊢
      exact forest.up z lt inner'
  · by_cases here : z = x
    · rw [here, update_self]
      exact equivalence.trans (forest.together x inside) (forest.together _ insideP)
    · rw [update_of_ne here]
      exact forest.together z lt
  · intro y z ltY ltZ rootY rootZ
    exact forest.root y z ltY ltZ (roots y rootY) (roots z rootZ)
  · have here : r ≠ x := by
      rintro rfl
      exact inner isRoot
    rw [update_of_ne here]
    exact isRoot

/-- The elements of higher rank, which bound the way to the root. -/
def above (size : Nat) (rank : Nat → Nat) (x : Nat) : Finset Nat :=
  (Finset.range size).filter fun y => rank x < rank y

lemma above_lt (insideY : y < size) (lower : rank x < rank y) :
    (above size rank y).card < (above size rank x).card := by
  apply Finset.card_lt_card
  refine ⟨fun z inside => ?_, fun sub => ?_⟩
  · simp only [above, Finset.mem_filter] at inside ⊢
    exact ⟨inside.1, Nat.lt_trans lower inside.2⟩
  · have here : y ∈ above size rank x := Finset.mem_filter.mpr ⟨Finset.mem_range.mpr insideY, lower⟩
    have there := (Finset.mem_filter.mp (sub here)).2
    exact Nat.lt_irrefl _ there

lemma above_lt_size (inside : x < size) : (above size rank x).card < size := by
  have proper : (above size rank x).card < (Finset.range size).card := by
    apply Finset.card_lt_card
    refine ⟨Finset.filter_subset _ _, fun sub => ?_⟩
    have here := (Finset.mem_filter.mp (sub (Finset.mem_range.mpr inside))).2
    exact Nat.lt_irrefl _ here
  rwa [Finset.card_range] at proper

lemma findLoop_spec {fuel : Nat} (forest : Forest size parent rank same)
    (equivalence : Equivalence same) (inside : x < size)
    (enough : (above size rank x).card < fuel) :
    (findLoop fuel parent x).2 < size ∧ same x (findLoop fuel parent x).2 ∧
      (findLoop fuel parent x).1 (findLoop fuel parent x).2 = (findLoop fuel parent x).2 ∧
      Forest size (findLoop fuel parent x).1 rank same ∧
      ∀ r, parent r = r → (findLoop fuel parent x).1 r = r := by
  induction fuel generalizing parent x with
  | zero => exact absurd enough (Nat.not_lt_zero _)
  | succ fuel ih =>
    simp only [findLoop]
    split
    next isRoot =>
      exact ⟨inside, equivalence.refl x, isRoot.symm, forest, fun _ root => root⟩
    rename_i inner
    have inner : parent x ≠ x := fun self => inner self.symm
    obtain ⟨next, keeps⟩ := forest.split equivalence inside inner
    have insideP := forest.inside x inside
    have fewer := above_lt insideP (forest.up x inside inner)
    obtain ⟨lt, reached, isRoot, after, roots⟩ := ih next insideP (by omega)
    exact ⟨lt, equivalence.trans (forest.together x inside) reached, isRoot, after,
      fun r root => roots r (keeps r root)⟩

end Forest

/-! ## Sets -/

/-- The structure holds the classes of `same`. -/
structure Sound (uf : UnionFind) (same : Nat → Nat → Prop) : Prop where
  equivalence : Equivalence same
  forest : Forest uf.size uf.parent uf.rank same
  ring : ∀ x, x < uf.size → ∃ l, Ring uf.next x l ∧ ∀ y, y ∈ x :: l ↔ y < uf.size ∧ same x y

lemma reset_sound (size : Nat) : Sound (reset size) (· = ·) := by
  refine ⟨⟨fun _ => rfl, .symm, .trans⟩, ⟨fun _ lt => lt, fun x _ inner => absurd rfl inner,
    fun _ _ => rfl, fun _ _ _ _ _ _ same => same⟩, fun x inside => ⟨[], ring_self rfl, ?_⟩⟩
  intro y
  rw [List.mem_singleton]
  constructor
  · rintro rfl
    exact ⟨inside, rfl⟩
  · exact fun both => both.2.symm

section Sound

variable {uf : UnionFind} {same : Nat → Nat → Prop} {x y : Nat}

lemma Sound.find (sound : Sound uf same) (inside : x < uf.size) :
    ∃ r parent, uf.find x = (r, { uf with parent := parent }) ∧ r < uf.size ∧ same x r ∧
      parent r = r ∧ Sound { uf with parent := parent } same ∧
      ∀ z, uf.parent z = z → parent z = z := by
  obtain ⟨lt, reached, isRoot, after, roots⟩ :=
    findLoop_spec sound.forest sound.equivalence inside (above_lt_size inside)
  exact ⟨_, _, rfl, lt, reached, isRoot, ⟨sound.equivalence, after, sound.ring⟩, roots⟩

lemma Sound.getSet (sound : Sound uf same) (inside : x < uf.size) :
    ∃ l, uf.getSet x = some (x :: l) ∧ Ring uf.next x l ∧
      ∀ y, y ∈ x :: l ↔ y < uf.size ∧ same x y := by
  obtain ⟨l, ring, members⟩ := sound.ring x inside
  have short : l.length ≤ uf.size := by
    have nodup := (List.nodup_cons.mp ring.nodup).2
    have sub : l ⊆ List.range uf.size := by
      intro y inList
      exact List.mem_range.mpr ((members y).mp (List.mem_cons_of_mem x inList)).1
    have bound := (List.subperm_of_subset nodup sub).length_le
    rwa [List.length_range] at bound
  refine ⟨l, ?_, ring, members⟩
  rw [UnionFind.getSet, if_neg (Nat.not_le.mpr inside), ring.walk short]

def link (same : Nat → Nat → Prop) (x y : Nat) (u v : Nat) : Prop :=
  same u v ∨ (same u x ∧ same y v) ∨ (same u y ∧ same x v)

lemma link_equivalence (equivalence : Equivalence same) (x y : Nat) :
    Equivalence (link same x y) := by
  refine ⟨fun u => .inl (equivalence.refl u), ?_, ?_⟩
  · rintro u v (here | ⟨left, right⟩ | ⟨left, right⟩)
    · exact .inl (equivalence.symm here)
    · exact .inr (.inr ⟨equivalence.symm right, equivalence.symm left⟩)
    · exact .inr (.inl ⟨equivalence.symm right, equivalence.symm left⟩)
  rintro u v w (here | ⟨left, right⟩ | ⟨left, right⟩) (there | ⟨left', right'⟩ | ⟨left', right'⟩)
  · exact .inl (equivalence.trans here there)
  · exact .inr (.inl ⟨equivalence.trans here left', right'⟩)
  · exact .inr (.inr ⟨equivalence.trans here left', right'⟩)
  · exact .inr (.inl ⟨left, equivalence.trans right there⟩)
  · exact .inr (.inl ⟨left, right'⟩)
  · exact .inl (equivalence.trans left right')
  · exact .inr (.inr ⟨left, equivalence.trans right there⟩)
  · exact .inl (equivalence.trans left right')
  · exact .inr (.inr ⟨left, right'⟩)

/-- It is the least equivalence that holds `same` and the new pair. -/
lemma link_le {E : Nat → Nat → Prop} (equivalence : Equivalence E)
    (contains : ∀ u v, same u v → E u v) (pair : E x y) (u v : Nat) (h : link same x y u v) :
    E u v := by
  rcases h with here | ⟨left, right⟩ | ⟨left, right⟩
  · exact contains u v here
  · exact equivalence.trans (contains _ _ left) (equivalence.trans pair (contains _ _ right))
  · exact equivalence.trans (contains _ _ left)
      (equivalence.trans (equivalence.symm pair) (contains _ _ right))

lemma link_symm : link same x y = link same y x := by
  funext u v
  exact propext ⟨fun h => h.imp_right .symm, fun h => h.imp_right .symm⟩

lemma link_congr (equivalence : Equivalence same) {a b : Nat} (sameX : same x a)
    (sameY : same y b) : link same a b = link same x y := by
  have symm := @equivalence.symm
  have moved : ∀ {a b x y}, same x a → same y b → ∀ u v, link same a b u v → link same x y u v :=
    fun {a b x y} sameX sameY => link_le (link_equivalence equivalence x y) (fun _ _ => .inl)
      (.inr (.inl ⟨symm sameX, sameY⟩))
  funext u v
  exact propext ⟨moved sameX sameY u v, moved (symm sameX) (symm sameY) u v⟩

lemma link_of_same (equivalence : Equivalence same) (known : same x y) :
    link same x y = same := by
  funext u v
  exact propext ⟨link_le equivalence (fun _ _ here => here) known u v, .inl⟩

lemma link_of_left (equivalence : Equivalence same) {u v : Nat} (here : same x u) :
    link same x y u v ↔ same x v ∨ same y v := by
  constructor
  · rintro (other | ⟨-, other⟩ | ⟨-, other⟩)
    · exact .inl (equivalence.trans here other)
    · exact .inr other
    · exact .inl other
  · rintro (other | other)
    · exact .inl (equivalence.trans (equivalence.symm here) other)
    · exact .inr (.inl ⟨equivalence.symm here, other⟩)

lemma Forest.hang {size : Nat} {parent rank rank' : Nat → Nat} {top low : Nat}
    (forest : Forest size parent rank same) (equivalence : Equivalence same)
    (insideT : top < size) (insideL : low < size) (rootT : parent top = top)
    (rootL : parent low = low) (apart : low ≠ top) (lower : rank low < rank' top)
    (grows : rank top ≤ rank' top) (others : ∀ z ≠ top, rank' z = rank z) :
    Forest size (update parent low top) rank' (link same top low) := by
  have roots : ∀ r, update parent low top r = r → r ≠ low ∧ parent r = r := by
    intro r isRoot
    have other : r ≠ low := by
      rintro rfl
      rw [update_self] at isRoot
      exact apart isRoot.symm
    rw [update_of_ne other] at isRoot
    exact ⟨other, isRoot⟩
  refine ⟨fun z lt => ?_, fun z lt inner => ?_, fun z lt => ?_, ?_⟩
  · by_cases here : z = low
    · rw [here, update_self]
      exact insideT
    · rw [update_of_ne here]
      exact forest.inside z lt
  · by_cases here : z = low
    · rw [here, update_self, others low apart]
      exact lower
    rw [update_of_ne here] at inner ⊢
    have notTop : z ≠ top := by
      rintro rfl
      exact inner rootT
    have rising := forest.up z lt inner
    rw [others z notTop]
    by_cases parentTop : parent z = top
    · rw [parentTop] at rising ⊢
      omega
    · rw [others _ parentTop]
      exact rising
  · by_cases here : z = low
    · rw [here, update_self]
      exact .inr (.inr ⟨equivalence.refl low, equivalence.refl top⟩)
    · rw [update_of_ne here]
      exact .inl (forest.together z lt)
  · intro u v ltU ltV isRootU isRootV linked
    obtain ⟨notLowU, rootU⟩ := roots u isRootU
    obtain ⟨notLowV, rootV⟩ := roots v isRootV
    rcases linked with here | ⟨-, right⟩ | ⟨left, -⟩
    · exact forest.root u v ltU ltV rootU rootV here
    · exact absurd (forest.root low v insideL ltV rootL rootV right).symm notLowV
    · exact absurd (forest.root u low ltU insideL rootU rootL left) notLowU

/-- A rank only grows when the class takes in another one with an element of that rank. -/
def Raised (uf uf' : UnionFind) (same same' : Nat → Nat → Prop) : Prop :=
  ∀ z, uf'.rank z = uf.rank z ∨ uf'.rank z = uf.rank z + 1 ∧
    ∃ w < uf.size, uf.rank w = uf.rank z ∧ ¬same z w ∧ same' z w

variable (sound : Sound uf same) (insideX : x < uf.size) (insideY : y < uf.size)

include sound insideX insideY

/-- Joining the rings of two classes gives the rings of the linked classes. -/
lemma Sound.join_rings (apart : ¬same x y) (z : Nat) (insideZ : z < uf.size) :
    ∃ l, Ring (exchange uf.next x y) z l ∧ ∀ v, v ∈ z :: l ↔ v < uf.size ∧ link same x y z v := by
  have symm := @sound.equivalence.symm
  have trans := @sound.equivalence.trans
  obtain ⟨lx, ringX, membersX⟩ := sound.ring x insideX
  obtain ⟨ly, ringY, membersY⟩ := sound.ring y insideY
  have disjoint : ∀ a, a ∈ x :: lx → a ∉ y :: ly := by
    intro a inX inY
    exact apart (trans ((membersX a).mp inX).2 (symm ((membersY a).mp inY).2))
  have joined := ringX.splice ringY disjoint
  have members : ∀ v, v ∈ x :: (ly ++ y :: lx) ↔ v < uf.size ∧ (same x v ∨ same y v) := by
    intro v
    have first := membersX v
    have second := membersY v
    simp only [List.mem_cons, List.mem_append] at first second ⊢
    rw [and_or_left, ← first, ← second]
    constructor
    · rintro (here | here | here | here)
      · exact .inl (.inl here)
      · exact .inr (.inr here)
      · exact .inr (.inl here)
      · exact .inl (.inr here)
    · rintro ((here | here) | (here | here))
      · exact .inl here
      · exact .inr (.inr (.inr here))
      · exact .inr (.inr (.inl here))
      · exact .inr (.inl here)
  by_cases touched : same x z ∨ same y z
  · obtain ⟨l, ring, all⟩ := joined.enter ((members z).mpr ⟨insideZ, touched⟩)
    refine ⟨l, ring, fun v => ?_⟩
    rw [all, members]
    refine and_congr_right fun _ => ?_
    rcases touched with here | here
    · exact (link_of_left sound.equivalence here).symm
    · rw [link_symm]
      exact or_comm.trans (link_of_left sound.equivalence here).symm
  · obtain ⟨l, ring, all⟩ := sound.ring z insideZ
    rw [not_or] at touched
    refine ⟨l, ring.exchange ?_ ?_, fun v => ?_⟩
    · exact fun inside => touched.1 (symm ((all x).mp inside).2)
    · exact fun inside => touched.2 (symm ((all y).mp inside).2)
    rw [all]
    refine and_congr_right fun _ => ⟨.inl, ?_⟩
    rintro (here | ⟨left, -⟩ | ⟨left, -⟩)
    · exact here
    · exact absurd (symm left) touched.1
    · exact absurd (symm left) touched.2

lemma Sound.hang (rootX : uf.parent x = x) (rootY : uf.parent y = y) (ne : x ≠ y) :
    ∃ r uf', (uf.join x y).hang x y = (r, uf') ∧ uf'.size = uf.size ∧ (r = x ∨ r = y) ∧
      Sound uf' (link same x y) ∧ Raised uf uf' same (link same x y) := by
  have equivalence := link_equivalence sound.equivalence x y
  have apart : ¬same x y := fun same =>
    ne (sound.forest.root x y insideX insideY rootX rootY same)
  have rings := sound.join_rings insideX insideY apart
  by_cases lowX : uf.rank x < uf.rank y
  · refine ⟨y, _, if_pos lowX, rfl, .inr rfl, ⟨equivalence, ?_, rings⟩, fun _ => .inl rfl⟩
    rw [link_symm]
    exact sound.forest.hang sound.equivalence insideY insideX rootY rootX ne lowX (Nat.le_refl _)
      fun _ _ => rfl
  have outer : (uf.join x y).hang x y = _ := if_neg lowX
  by_cases lowY : uf.rank y < uf.rank x
  · refine ⟨x, _, outer.trans (if_pos lowY), rfl, .inl rfl, ⟨equivalence, ?_, rings⟩,
      fun _ => .inl rfl⟩
    exact sound.forest.hang sound.equivalence insideX insideY rootX rootY ne.symm lowY
      (Nat.le_refl _) fun _ _ => rfl
  -- equal ranks: the root that stays gets a higher one
  have raised : update uf.rank x (uf.rank x + 1) x = uf.rank x + 1 := update_self ..
  refine ⟨x, _, outer.trans (if_neg lowY), rfl, .inl rfl, ⟨equivalence, ?_, rings⟩, fun z => ?_⟩
  rotate_left
  · by_cases here : z = x
    · subst here
      exact .inr ⟨raised, y, insideY, by omega, apart,
        .inr (.inl ⟨sound.equivalence.refl _, sound.equivalence.refl _⟩)⟩
    · exact .inl (update_of_ne here _ _)
  have lower : uf.rank y < update uf.rank x (uf.rank x + 1) x := by omega
  have grows : uf.rank x ≤ update uf.rank x (uf.rank x + 1) x := by omega
  exact sound.forest.hang sound.equivalence insideX insideY rootX rootY ne.symm lower grows
    fun z other => update_of_ne other _ _

/-- `merge` links the classes of two elements and returns the root. -/
lemma Sound.merge :
    ∃ r uf', uf.merge x y = some (r, uf') ∧ uf'.size = uf.size ∧ r < uf.size ∧
      Sound uf' (link same x y) ∧ link same x y x r ∧ Raised uf uf' same (link same x y) := by
  obtain ⟨a, _, found1, insideA, sameX, rootA, sound1, -⟩ := sound.find insideX
  obtain ⟨b, _, found2, insideB, sameY, rootB, sound2, keeps⟩ := sound1.find insideY
  have refl := sound.equivalence.refl
  have symm := @sound.equivalence.symm
  have trans := @sound.equivalence.trans
  have valid : ¬(uf.size ≤ x ∨ uf.size ≤ y) := by omega
  rw [UnionFind.merge, if_neg valid, found1]
  simp only [found2]
  by_cases one : a = b
  · subst one
    rw [if_pos rfl, link_of_same sound.equivalence (trans sameX (symm sameY))]
    exact ⟨a, _, rfl, rfl, insideA, sound2, sameX, fun _ => .inl rfl⟩
  obtain ⟨r, uf', made, size, which, after, raised⟩ :=
    sound2.hang insideA insideB (keeps a rootA) rootB one
  rw [if_neg one, made, ← link_congr sound.equivalence sameX sameY]
  refine ⟨r, uf', rfl, size, ?_, after, ?_, raised⟩
  · rcases which with rfl | rfl
    · exact insideA
    · exact insideB
  · rcases which with rfl | rfl
    · exact .inl sameX
    · exact .inr (.inl ⟨sameX, refl r⟩)

end Sound

/-! ## Runs -/

/-- Every class has at least as many members as the ranks of its elements ask for. -/
def Ranked (uf : UnionFind) : Prop :=
  ∀ x < uf.size, ∀ set, uf.getSet x = some set → 2 ^ uf.rank x ≤ set.length

lemma Ranked.step {uf uf' : UnionFind} {same same' : Nat → Nat → Prop} (ranked : Ranked uf)
    (sound : Sound uf same) (sound' : Sound uf' same') (size : uf'.size = uf.size)
    (contains : ∀ u v, same u v → same' u v) (raised : Raised uf uf' same same') : Ranked uf' := by
  intro z inside set' found'
  obtain ⟨l', again, -, members'⟩ := sound'.getSet inside
  cases found'.symm.trans again
  rw [size] at inside members'
  obtain ⟨l, found, ring, members⟩ := sound.getSet inside
  have enough := ranked z inside _ found
  have kept : z :: l ⊆ z :: l' := fun v mem =>
    (members' v).mpr (((members v).mp mem).imp_right (contains z v))
  rcases raised z with same | ⟨more, w, insideW, equal, apart, linked⟩
  · rw [same]
    exact enough.trans (List.subperm_of_subset ring.nodup kept).length_le
  obtain ⟨m, foundW, ringW, membersW⟩ := sound.getSet insideW
  have enoughW := ranked w insideW _ foundW
  have keptW : w :: m ⊆ z :: l' := fun v mem => (members' v).mpr (((membersW v).mp mem).imp_right
    fun here => sound'.equivalence.trans linked (contains w v here))
  have disjoint : (z :: l).Disjoint (w :: m) := fun v inZ inW => apart
    (sound.equivalence.trans ((members v).mp inZ).2
      (sound.equivalence.symm ((membersW v).mp inW).2))
  have total := (List.subperm_of_subset (ring.nodup.append ringW.nodup disjoint)
    (List.append_subset.mpr ⟨kept, keptW⟩)).length_le
  rw [List.length_append] at total
  rw [equal] at enoughW
  rw [more, Nat.pow_succ]
  omega

/-- The pairs have been merged since the last `reset`. -/
inductive Reached : UnionFind → List (Nat × Nat) → Prop where
  | reset (size : Nat) : Reached (reset size) []
  | find {uf : UnionFind} {pairs : List (Nat × Nat)} (before : Reached uf pairs) (x : Nat)
      (inside : x < uf.size) : Reached (uf.find x).2 pairs
  | merge {uf uf' : UnionFind} {pairs : List (Nat × Nat)} {r : Nat} (before : Reached uf pairs)
      (x y : Nat) (merged : uf.merge x y = some (r, uf')) : Reached uf' ((x, y) :: pairs)

def Connected (pairs : List (Nat × Nat)) : Nat → Nat → Prop := EqvGen fun u v => (u, v) ∈ pairs

lemma connected_cons (pairs : List (Nat × Nat)) (x y : Nat) :
    Connected ((x, y) :: pairs) = link (Connected pairs) x y := by
  have gen := EqvGen.is_equivalence fun u v => (u, v) ∈ pairs
  funext u v
  refine propext ⟨eqvGen_le (link_equivalence gen x y) fun u v mem => ?_, link_le
    (EqvGen.is_equivalence _) (fun u v h => h.mono fun _ _ => List.mem_cons_of_mem _)
    (.rel _ _ List.mem_cons_self) u v⟩
  rcases List.mem_cons.mp mem with new | old
  · cases new
    exact .inr (.inl ⟨gen.refl _, gen.refl _⟩)
  · exact .inl (.rel _ _ old)

lemma Reached.sound {uf : UnionFind} {pairs : List (Nat × Nat)} (reached : Reached uf pairs) :
    Sound uf (Connected pairs) ∧ Ranked uf := by
  induction reached with
  | reset size =>
    have nothing : Connected [] = (· = ·) := by
      funext u v
      exact propext ⟨eqvGen_le ⟨fun _ => rfl, .symm, .trans⟩ nofun, fun h => h ▸ .refl u⟩
    rw [nothing]
    refine ⟨reset_sound size, fun x inside set found => ?_⟩
    rw [UnionFind.getSet, if_neg (Nat.not_le.mpr inside)] at found
    cases found
    exact Nat.succ_pos _
  | find before x inside ih =>
    obtain ⟨r, _, found, -, -, -, sound, -⟩ := ih.1.find inside
    rw [found]
    exact ⟨sound, ih.2⟩
  | @merge uf uf' pairs r before x y merged ih =>
    have valid : x < uf.size ∧ y < uf.size := by
      by_contra invalid
      rw [UnionFind.merge, if_pos (by omega)] at merged
      cases merged
    obtain ⟨_, _, again, size, -, sound, -, raised⟩ := ih.1.merge valid.1 valid.2
    cases merged.symm.trans again
    rw [connected_cons]
    exact ⟨sound, ih.2.step ih.1 sound size (fun _ _ => .inl) raised⟩

/-- The sets are the classes of the merged pairs, each a ring of at least `2 ^ rank` elements. -/
theorem union_find_classes (uf : UnionFind) (pairs : List (Nat × Nat))
    (reached : Reached uf pairs) (x : Nat) (inside : x < uf.size) :
    (uf.find x).2.parent (uf.find x).1 = (uf.find x).1 ∧
      (∀ y < uf.size, (uf.find x).1 = ((uf.find x).2.find y).1 ↔ Connected pairs x y) ∧
      ∃ l, uf.getSet x = some (x :: l) ∧ Ring uf.next x l ∧
        (∀ y, y ∈ x :: l ↔ y < uf.size ∧ Connected pairs x y) ∧
        2 ^ uf.rank x ≤ (x :: l).length := by
  obtain ⟨sound, ranked⟩ := reached.sound
  obtain ⟨l, found, ring, members⟩ := sound.getSet inside
  obtain ⟨r, _, foundX, insideR, sameX, root, sound', -⟩ := sound.find inside
  rw [foundX]
  refine ⟨root, fun y insideY => ?_, l, found, ring, members, ranked x inside _ found⟩
  obtain ⟨r', _, foundY, insideR', sameY, root', sound'', keeps⟩ := sound'.find insideY
  have symm := @sound.equivalence.symm
  have trans := @sound.equivalence.trans
  simp only [foundY]
  constructor
  · rintro rfl
    exact trans sameX (symm sameY)
  · intro connected
    exact sound''.forest.root r r' insideR insideR' (keeps r root) root'
      (trans (symm sameX) (trans connected sameY))

theorem union_find_classes_pair :
    ∃ uf, Reached uf [(0, 1)] ∧ (uf.find 0).1 = ((uf.find 0).2.find 1).1 :=
  have run : Reached _ [(0, 1)] := .merge (.reset 2) 0 1 rfl
  ⟨_, run, ((union_find_classes _ _ run 0 (by decide)).2.1 1 (by decide)).mpr
    (.rel _ _ List.mem_cons_self)⟩

end DataFlowSets
