import SymSan.Denotation

/-!
# How the union table grows

Every operation of the runtime changes the label table in one way only: it
writes a record at the next free label, sometimes enters that label in the hash
table, and reports conditions to the tracer. `Grows P` is the closure of these
changes under a condition `P` on the records. Values of old labels, the order
of operands and the hash table are followed through growth once, here.
-/

namespace TableGrowth

open LabelTable Denotation

variable {a b : LabelInfo} {l : Nat} {s s' : Runtime} {r : LabelInfo}

/-- A bounds label of the stack; these grow down from the end of the array. -/
def StackBounds (s : Runtime) (l : Nat) : Prop := s.stackTop ≤ l ∧ (s.info l).op = .alloca

/-- An operand field of label `l`: nothing, an earlier label, or stack bounds. -/
def Placed (s : Runtime) (l operand : Nat) : Prop := operand < l ∨ StackBounds s operand

/-- A label that instrumented code can hold. -/
def Existing (s : Runtime) (l : Nat) : Prop :=
  l ≤ s.last ∨ l = kInitializingLabel ∨ StackBounds s l

structure Topological (s : Runtime) : Prop where
  const : s.info 0 = constInfo
  room : s.last < s.stackTop
  top : s.stackTop ≤ kInitializingLabel
  first : ∀ l, 1 ≤ l → l ≤ s.last → Placed s l (s.info l).l1
  second : ∀ l, 1 ≤ l → l ≤ s.last → (s.info l).op ≠ .load → Placed s l (s.info l).l2
  entries : ∀ b l, l ∈ s.bucket b → 1 ≤ l ∧ l ≤ s.last

lemma zero_ne_initializing : 0 ≠ kInitializingLabel := by decide

lemma Topological.const_not_bounds (topo : Topological s) : (s.info 0).op ≠ .alloca := by
  rw [topo.const]
  decide

lemma Topological.ne_initializing (topo : Topological s) (le : l ≤ s.last) :
    l ≠ kInitializingLabel := by
  have room := topo.room
  have top := topo.top
  omega

/-- Extensions have one operand, a label of the table before them. -/
structure WellFormed (s : Runtime) : Prop extends Topological s where
  base : ∀ l, 1 ≤ l → l ≤ s.last → (s.info l).op = .zext ∨ (s.info l).op = .sext →
    1 ≤ (s.info l).l1 ∧ (s.info l).l1 < l ∧ (s.info l).l2 = 0

/-- A record that may be written at the next label. -/
structure Legal (s : Runtime) (r : LabelInfo) : Prop where
  first : Placed s (s.last + 1) r.l1
  second : r.op ≠ .load → Placed s (s.last + 1) r.l2

inductive Grows (P : Runtime → LabelInfo → Prop) (s : Runtime) : Runtime → Prop
  | refl : Grows P s s
  | push {s' : Runtime} {r : LabelInfo} : Grows P s s' → s'.last + 1 < s'.stackTop →
      P s' r → Grows P s (s'.push r)
  | insert {s' : Runtime} {r : LabelInfo} : Grows P s s' → s'.last + 1 < s'.stackTop →
      P s' r → Grows P s ((s'.push r).insert (s'.last + 1))
  | trace {s' : Runtime} {l : Nat} {c : UndefinedCheck} : Grows P s s' →
      Grows P s (s'.traceCond l c)

/-- What is left alone: old labels and the stack. -/
structure Extends (s s' : Runtime) : Prop where
  last : s.last ≤ s'.last
  stackTop : s'.stackTop = s.stackTop
  same : ∀ l, l ≤ s.last ∨ s.stackTop ≤ l → s'.info l = s.info l

lemma Extends.refl (s : Runtime) : Extends s s :=
  ⟨Nat.le_refl _, rfl, fun _ _ => rfl⟩

lemma Extends.trans {s'' : Runtime} (h : Extends s s') (h' : Extends s' s'') : Extends s s'' := by
  have hlast := h.last
  have hlast' := h'.last
  have htop := h.stackTop
  refine ⟨by omega, h'.stackTop.trans htop, ?_⟩
  intro l hl
  rw [h'.same l (by omega), h.same l hl]

lemma Extends.push (room : s.last + 1 < s.stackTop) (r : LabelInfo) : Extends s (s.push r) := by
  refine ⟨by simp, rfl, ?_⟩
  intro l hl
  exact Runtime.push_info_of_ne s r (by omega)

lemma Extends.insert (s : Runtime) (l : Nat) : Extends s (s.insert l) :=
  ⟨Nat.le_refl _, rfl, fun _ _ => rfl⟩

lemma Extends.traceCond (s : Runtime) (l : Nat) (c : UndefinedCheck) :
    Extends s (s.traceCond l c) :=
  ⟨Nat.le_refl _, rfl, fun _ _ => rfl⟩

lemma Extends.den (h : Extends s s') (inp : Input) (hl : l ≤ s.last) :
    den s'.info inp l = den s.info inp l :=
  den_congr inp fun k hk => h.same k (.inl (by omega))

lemma StackBounds.extends (h : StackBounds s l) (e : Extends s s') : StackBounds s' l := by
  have top := e.stackTop
  refine ⟨by have := h.1; omega, ?_⟩
  rw [e.same l (.inr h.1)]
  exact h.2

lemma Placed.extends {x : Nat} (h : Placed s l x) (e : Extends s s') {l' : Nat} (le : l ≤ l') :
    Placed s' l' x := h.imp (fun lt => by omega) (·.extends e)

lemma Existing.extends (h : Existing s l) (e : Extends s s') : Existing s' l := by
  have last := e.last
  rcases h with h | h | h
  · exact .inl (by omega)
  · exact .inr (.inl h)
  · exact .inr (.inr (h.extends e))

lemma Existing.placed (h : Existing s l) (init : l ≠ kInitializingLabel) :
    Placed s (s.last + 1) l := by
  rcases h with h | h | h
  · exact .inl (by omega)
  · exact absurd h init
  · exact .inr h

namespace Grows

variable {P Q : Runtime → LabelInfo → Prop} {s s' s'' : Runtime} (h : Grows P s s')

include h

lemma trans (h' : Grows P s' s'') : Grows P s s'' := by
  induction h' with
  | refl => exact h
  | push _ room ok ih => exact ih.push room ok
  | insert _ room ok ih => exact ih.insert room ok
  | trace _ ih => exact ih.trace

lemma mono (weaker : ∀ t r, P t r → Q t r) : Grows Q s s' := by
  induction h with
  | refl => exact refl
  | push _ room ok ih => exact ih.push room (weaker _ _ ok)
  | insert _ room ok ih => exact ih.insert room (weaker _ _ ok)
  | trace _ ih => exact ih.trace

lemma toExtends : Extends s s' := by
  induction h with
  | refl => exact .refl s
  | push _ room _ ih => exact ih.trans (.push room _)
  | insert _ room _ ih => exact (ih.trans (.push room _)).trans (.insert _ _)
  | trace _ ih => exact ih.trans (.traceCond _ _ _)

/-- The induction rule: what a legal write and a hash-table entry preserve
holds after any growth. -/
lemma invariant {I : Runtime → Prop} (start : I s)
    (push : ∀ (t : Runtime) r, I t → t.last + 1 < t.stackTop → P t r → I (t.push r))
    (insert : ∀ (t : Runtime) r, I (t.push r) → I ((t.push r).insert (t.last + 1)))
    (trace : ∀ (t : Runtime) l c, I t → I (t.traceCond l c)) : I s' := by
  induction h with
  | refl => exact start
  | push _ room ok ih => exact push _ _ ih room ok
  | insert _ room ok ih => exact insert _ _ (push _ _ ih room ok)
  | trace _ ih => exact trace _ _ _ ih

end Grows

namespace Topological

variable {s : Runtime} (h : Topological s)

include h

lemma push (room : s.last + 1 < s.stackTop) (ok : Legal s r) : Topological (s.push r) where
  const := by
    exact h.const
  room := room
  top := h.top
  first := by
    intro l hl hlast
    rw [Runtime.push_last] at hlast
    by_cases new : l = s.last + 1
    · rw [new, Runtime.push_info_new]
      exact ok.first.extends (.push room r) (Nat.le_refl _)
    · rw [Runtime.push_info_of_ne s r new]
      exact (h.first l hl (by omega)).extends (.push room r) (Nat.le_refl _)
  second := by
    intro l hl hlast
    rw [Runtime.push_last] at hlast
    by_cases new : l = s.last + 1
    · rw [new, Runtime.push_info_new]
      exact fun ne => (ok.second ne).extends (.push room r) (Nat.le_refl _)
    · rw [Runtime.push_info_of_ne s r new]
      exact fun ne => (h.second l hl (by omega) ne).extends (.push room r) (Nat.le_refl _)
  entries := by
    intro b l hl
    have old := h.entries b l hl
    exact ⟨old.1, by rw [Runtime.push_last]; omega⟩

lemma insert {label : Nat} (pos : 1 ≤ label) (le : label ≤ s.last) :
    Topological (s.insert label) where
  const := h.const
  room := h.room
  top := h.top
  first := h.first
  second := h.second
  entries := by
    intro b l hl
    rcases Runtime.mem_insert_bucket hl with new | old
    · subst new
      exact ⟨pos, le⟩
    · exact h.entries b l old

lemma traceCond (l : Nat) (c : UndefinedCheck) : Topological (s.traceCond l c) :=
  ⟨h.const, h.room, h.top, h.first, h.second, h.entries⟩

lemma grows (g : Grows Legal s s') : Topological s' := by
  refine g.invariant h ?_ ?_ ?_
  · intro t r ht room ok
    exact ht.push room ok
  · intro t r ht
    exact ht.insert (Nat.le_add_left 1 _) (Nat.le_refl _)
  · intro t l c ht
    exact ht.traceCond l c

lemma ordered (pos : 1 ≤ l) (le : l ≤ s.last) (below : (s.info l).l1 < s.stackTop)
    (below2 : (s.info l).op ≠ .load → (s.info l).l2 < s.stackTop) : Ordered s.info l := by
  constructor
  · rcases h.first l pos le with hfirst | hfirst
    · exact hfirst
    · have := hfirst.1
      omega
  intro hload
  have := below2 hload
  rcases h.second l pos le hload with hsecond | hsecond
  · exact hsecond
  · have := hsecond.1
    omega

lemma lookup_some {key : LabelInfo} (hit : s.lookup key = some l) :
    1 ≤ l ∧ l ≤ s.last ∧ sameKey (s.info l) key = true := by
  have hmem := List.mem_of_find?_eq_some hit
  have hsame := List.find?_some hit
  obtain ⟨pos, le⟩ := h.entries _ l hmem
  exact ⟨pos, le, hsame⟩

end Topological

/-! ## Labels known by their fields -/

lemma width_sameKey (h : sameKey a b = true) : width a = width b := by
  obtain ⟨_, _, hop, hsize, _⟩ := (sameKey_iff a b).mp h
  simp only [width, hop, hsize]

lemma evalRecord_sameKey (look : Nat → LabelInfo) (val : Nat → Nat) (inp : Input) (l : Nat)
    (h : sameKey a b = true) : evalRecord look val inp l a = evalRecord look val inp l b := by
  obtain ⟨_, _, _, _, _, _, _⟩ := a
  rw [sameKey_iff] at h
  obtain ⟨rfl, rfl, rfl, rfl, rfl, rfl⟩ := h
  rfl

lemma sameKey_trans {c : LabelInfo} (h : sameKey a b = true) (h' : sameKey b c = true) :
    sameKey a c = true := by
  rw [sameKey_iff] at h h' ⊢
  obtain ⟨a1, a2, a3, a4, a5, a6⟩ := h
  obtain ⟨b1, b2, b3, b4, b5, b6⟩ := h'
  exact ⟨a1.trans b1, a2.trans b2, a3.trans b3, a4.trans b4, a5.trans b5, a6.trans b6⟩

lemma sameKey_symm (h : sameKey a b = true) : sameKey b a = true := by
  rw [sameKey_iff] at h ⊢
  obtain ⟨h1, h2, h3, h4, h5, h6⟩ := h
  exact ⟨h1.symm, h2.symm, h3.symm, h4.symm, h5.symm, h6.symm⟩

lemma sameKey_refl (a : LabelInfo) : sameKey a a = true :=
  (sameKey_iff a a).mpr ⟨rfl, rfl, rfl, rfl, rfl, rfl⟩

/-- A label with the fields of `r`, found in the table or added to it, has the
value of `r` over the old table. -/
lemma Topological.den_of_fields (topo : Topological s') (ext : Extends s s') (pos : 1 ≤ l)
    (le : l ≤ s'.last) (same : sameKey (s'.info l) r = true) (h1 : r.l1 ≤ s.last)
    (h2 : r.op ≠ .load → r.l2 ≤ s.last) :
    width (s'.info l) = width r ∧
      ∀ inp, den s'.info inp l = evalRecord s.info (den s.info inp) inp l r % 2 ^ width r := by
  obtain ⟨_, _, fop, _⟩ := (sameKey_iff _ _).mp same
  have room := topo.room
  have last := ext.last
  have ordered : Ordered s'.info l := by
    refine topo.ordered pos le (by omega) ?_
    intro hload
    have := h2 (fop ▸ hload)
    omega
  refine ⟨width_sameKey same, ?_⟩
  intro inp
  rw [den_eq s'.info inp (by omega) ordered, width_sameKey same,
    evalRecord_sameKey s'.info (den s'.info inp) inp l same]
  congr 1
  apply evalRecord_congr
  · exact ⟨ext.same _ (.inl h1), ext.den inp h1⟩
  · intro hload
    exact ⟨ext.same _ (.inl (h2 hload)), ext.den inp (h2 hload)⟩

/-! ## Tables given by their records -/

/-- A table that holds the records of a list, with nothing in the hash table. -/
def tableOf (records : List LabelInfo) (stackTop : Nat) : Runtime where
  info := fun l => if l = 0 then constInfo else records.getD (l - 1) zeroInfo
  last := records.length
  stackTop := stackTop
  bucket := fun _ => []
  conds := []

/-- The conditions of a well-formed table, one record at a time. -/
def recordOk (i : Nat) (r : LabelInfo) : Bool :=
  r.l1 ≤ i && (r.op = .load || r.l2 ≤ i) &&
    ((r.op ≠ .zext && r.op ≠ .sext) || (1 ≤ r.l1 && r.l2 = 0))

lemma tableOf_wellFormed {records : List LabelInfo} {top : Nat} (room : records.length < top)
    (le : top ≤ kInitializingLabel)
    (ok : ∀ i < records.length, recordOk i (records.getD i zeroInfo) = true) :
    WellFormed (tableOf records top) := by
  have inside : ∀ l, 1 ≤ l → l ≤ records.length →
      recordOk (l - 1) ((tableOf records top).info l) = true := by
    intro l pos hl
    have ne : l ≠ 0 := by omega
    simp only [tableOf, ne]
    exact ok (l - 1) (by omega)
  simp only [recordOk, Bool.and_eq_true, Bool.or_eq_true, decide_eq_true_eq] at inside
  refine ⟨⟨rfl, room, le, ?_, ?_, ?_⟩, ?_⟩
  · intro l pos hl
    exact .inl (by have := (inside l pos hl).1.1; omega)
  · intro l pos hl ne
    rcases (inside l pos hl).1.2 with load | before
    · exact absurd load ne
    · exact .inl (by omega)
  · intro b l hl
    cases hl
  intro l pos hl hext
  obtain ⟨⟨_, _⟩, base⟩ := inside l pos hl
  rcases base with ⟨hz, hs⟩ | ⟨one, zero⟩
  · rcases hext with hext | hext
    · exact absurd hext hz
    · exact absurd hext hs
  · exact ⟨one, by omega, zero⟩

end TableGrowth
