import SymSan.UnionLoad
import Mathlib.Data.Finset.Card
import Mathlib.Data.Finset.Range

/-!
# What a load reads

Over an array of byte cells each path of `__taint_union_load` is measured
against the little-endian word of the cells' bytes. The concatenating loop
reads every byte but records leading concrete bytes as zero; the shape path
reads consecutive bytes of the first cell's input whatever the other cells are;
the extract path returns the parent whatever the width of its value is; and
sizes of 8192 bytes and more do not fit the 16-bit size field. The exact
condition under which the returned label is right is `LoadOk`.
-/

namespace LoadSoundness

open LabelTable Denotation TableGrowth TaintUnion UnionSoundness LittleEndian UnionLoad

/-- The label reads the `n` bytes `g`. -/
structure Reads (s : Runtime) (l n : Nat) (g : Input → Nat → Nat) : Prop where
  pos : 1 ≤ l
  le : l ≤ s.last
  plain : (s.info l).op ≠ .alloca
  wide : width (s.info l) = 8 * n
  value : ∀ inp, den s.info inp l = word (g inp) n

/-- Every cell up to `j` is concrete. -/
def Leading (ls : Nat → Nat) (j : Nat) : Prop := ∀ k, k < j + 1 → ls k = 0

instance (ls : Nat → Nat) (j : Nat) : Decidable (Leading ls j) :=
  inferInstanceAs (Decidable (∀ k, k < j + 1 → ls k = 0))

/-- The bytes the loop records: leading concrete bytes are lost. -/
def recordedByte (info : Nat → LabelInfo) (ls : Nat → Nat) (app : Nat → BitVec 8)
    (inp : Input) (j : Nat) : Nat :=
  if Leading ls j then 0 else byteValue info inp ls app j

/-- What the returned label must be. -/
def Faithful (s s' : Runtime) (ls : Nat → Nat) (app : Nat → BitVec 8) (n l : Nat) : Prop :=
  if l = 0 then ∀ i, i < n → ls i = 0
  else l ≤ s'.last ∧ width (s'.info l) = 8 * n ∧
    ∀ inp, den s'.info inp l = word (byteValue s.info inp ls app) n

section Steps

variable {fl : Flags} {mem : Nat → Nat} {s s' : Runtime} {ls : Nat → Nat}
  {app : Nat → BitVec 8} {g : Input → Nat → Nat} {n i l label next c size : Nat}

lemma cell_extends (cell : ByteCell s l) (ext : Extends s s') : ByteCell s' l := by
  rcases cell with zero | ⟨pos, le, hw, ne, ordered⟩
  · exact .inl zero
  have same := ext.same l (.inl le)
  have last := ext.last
  refine .inr ⟨pos, by omega, by rw [same]; exact hw, by rw [same]; exact ne, ?_⟩
  simp only [Ordered, same]
  exact ordered

/-- One concatenation: nothing happens to two constants, otherwise the label
carries both operands. -/
lemma concat_step (topo : Topological s) (h1 : label ≤ s.last)
    (plain : (s.info label).op ≠ .alloca) (cell : ByteCell s next)
    (h : taintUnion fl mem s .concat size ⟨label, next, 0, c⟩ = some (l, s')) :
    label = 0 ∧ next = 0 ∧ l = 0 ∧ s' = s ∨
      (label ≠ 0 ∨ next ≠ 0) ∧ Grows Legal s s' ∧ 1 ≤ l ∧ l ≤ s'.last ∧
        s'.last ≤ s.last + 1 ∧
        sameKey (s'.info l) ⟨label, next, 0, if 1 ≤ next then 0 else c, .concat, size, 0⟩ =
          true := by
  have room := topo.room
  have top := topo.top
  have h2 : next ≤ s.last := cell.le
  have plain2 := cell.not_alloca topo.const
  by_cases both : label = 0 ∧ next = 0
  · obtain ⟨rfl, rfl⟩ := both
    have zero : taintUnion fl mem s .concat size ⟨0, 0, 0, c⟩ = some (0, s) := by
      simp [taintUnion, prepare, byteMove_order (.inr (.inr rfl)), earlyReturn]
    rw [zero] at h
    simp only [Option.some.injEq, Prod.mk.injEq] at h
    exact .inl ⟨rfl, rfl, h.1.symm, h.2.symm⟩
  · have early : earlyReturn s .concat ⟨label, next, 0, c⟩ = none := by
      simp only [earlyReturn]
      rw [if_neg (fun zero => both ⟨zero.1, zero.2.1⟩), if_neg (by omega),
        if_neg (by simp [plain, plain2])]
    have move : IsByteMove .concat := .inr (.inr rfl)
    obtain ⟨pos, le, bound, same⟩ := taintUnion_byteMove_some topo move early h
    have fields := moveKey_fields move mem s size ⟨label, next, 0, c⟩
    have grows : Grows Legal s s' := taintUnion_legal (.inl h1) (fun _ => .inl h2) h
    refine .inr ⟨by omega, grows, pos, le, bound, ?_⟩
    simpa only [ite_self] using sameKey_trans same fields

/-- The lower part of a concatenation: recorded bytes, or the constant zero. -/
def LowPart (s : Runtime) (label i : Nat) (g : Input → Nat → Nat) : Prop :=
  label = 0 ∧ (∀ inp j, j < i → g inp j = 0) ∨ Reads s label i g

lemma word_of_zeros {f : Nat → Nat} (zeros : ∀ j < i, f j = 0) : word f i = 0 := by
  induction i with
  | zero => rfl
  | succ i ih =>
    rw [word_succ, ih (fun j hj => zeros j (by omega)), zeros i (by omega)]
    omega

lemma concat_reads (topo : Topological s') (ext : Extends s s')
    (low : LowPart s label i g) (cell : ByteCell s next) (symbolic : label ≠ 0 ∨ next ≠ 0)
    (high : ∀ inp, g inp i = if next = 0 then c % 256 else den s.info inp next)
    (bytes : ∀ inp j, j < i + 1 → g inp j < 256) (pos : 1 ≤ l) (le : l ≤ s'.last)
    (same : sameKey (s'.info l)
      ⟨label, next, 0, if 1 ≤ next then 0 else c, .concat, 8 * (i + 1), 0⟩ = true) :
    Reads s' l (i + 1) g := by
  have le1 : label ≤ s.last := by
    rcases low with ⟨zero, _⟩ | reads
    · omega
    · exact reads.le
  have le2 : next ≤ s.last := cell.le
  obtain ⟨hwidth, hden⟩ := topo.den_of_fields ext pos le same le1 (fun _ => le2)
  have hop := ((sameKey_iff _ _).mp same).2.2.1
  refine ⟨pos, le, by simp [hop], hwidth, ?_⟩
  intro inp
  -- the two operands and the width of the lower one
  have lowWidth : width1 s.info
      ⟨label, next, 0, if 1 ≤ next then 0 else c, .concat, 8 * (i + 1), 0⟩ = 8 * i := by
    rcases low with ⟨zero, _⟩ | reads
    · rcases cell with nextZero | ⟨_, _, hw, _⟩
      · omega
      · simp only [width1, constWidth, zero, if_true]
        omega
    · have ne : label ≠ 0 := by have := reads.pos; omega
      simp [width1, ne, reads.wide]
  have lowValue : operand1 s.info (den s.info inp)
      ⟨label, next, 0, if 1 ≤ next then 0 else c, .concat, 8 * (i + 1), 0⟩ = word (g inp) i := by
    rcases low with ⟨zero, zeros⟩ | reads
    · simp only [zero]
      exact (word_of_zeros (zeros inp)).symm
    · have ne : label ≠ 0 := by have := reads.pos; omega
      simp [operand1, ne, reads.value]
  have highValue : operand2 s.info (den s.info inp)
      ⟨label, next, 0, if 1 ≤ next then 0 else c, .concat, 8 * (i + 1), 0⟩ = g inp i := by
    rw [high inp]
    by_cases nextZero : next = 0
    · have ne : label ≠ 0 := by omega
      have reads : Reads s label i g := by
        rcases low with ⟨zero, _⟩ | reads
        · exact absurd zero ne
        · exact reads
      have rest : 8 * (i + 1) - 8 * i = 8 := by omega
      simp only [operand2, width2, constWidth, nextZero, reads.wide, rest]
      rfl
    · simp [operand2, nextZero]
  rw [hden inp]
  simp only [evalRecord, lowWidth, lowValue, highValue, applyOp, width]
  rw [two_pow_mul_eight, two_pow_mul_eight]
  exact Nat.mod_eq_of_lt (word_lt fun j hj => bytes inp j hj)

end Steps

/-! ## The loop -/

section Loop

variable {fl : Flags} {mem : Nat → Nat} {s t s' : Runtime} {ls : Nat → Nat}
  {app : Nat → BitVec 8} {n i l label fuel : Nat}

lemma slowPath_done (fuel : Nat) (h : n ≤ i) :
    slowPath fl mem ls app n fuel i label t = some (label, t) := by
  cases fuel with
  | zero | succ fuel => simp [slowPath, h]

lemma slowPath_step (topo : Topological t) (cell : ByteCell t (ls i)) (h : i < n) :
    slowPath fl mem ls app n (fuel + 1) i label t =
      (taintUnion fl mem t .concat ((i + 1) * 8 % 2 ^ 16)
        ⟨label, ls i, 0, if ls i = 0 then ((app i).signExtend 64).toNat else 0⟩).bind fun r =>
      slowPath fl mem ls app n fuel (i + 1) r.1 r.2 := by
  have inside : ¬ n ≤ i := by omega
  have init := cell.ne_uninit topo
  have size := cell.size topo.const
  by_cases zero : ls i = 0
  · simp only [slowPath, inside, if_false, if_true, zero, ne_eq, not_true]
    rw [if_neg (by decide)]
  · have fits : 8 ≤ (n - i) * 8 := by omega
    simp [slowPath, inside, init, zero, size, fits]

/-- The state of the loop: nothing symbolic was met yet, or the label reads
what was recorded so far. -/
def LoopInv (s t : Runtime) (ls : Nat → Nat) (app : Nat → BitVec 8) (label i : Nat) : Prop :=
  label = 0 ∧ (∀ j, j < i → ls j = 0) ∨
    (∃ j, j < i ∧ ls j ≠ 0) ∧ Reads t label i (recordedByte s.info ls app)

lemma LoopInv.label_le (inv : LoopInv s t ls app label i) : label ≤ t.last := by
  rcases inv with ⟨zero, _⟩ | ⟨_, reads⟩
  · omega
  · exact reads.le

lemma LoopInv.plain (topo : Topological t) (inv : LoopInv s t ls app label i) :
    (t.info label).op ≠ .alloca := by
  rcases inv with ⟨rfl, _⟩ | ⟨_, reads⟩
  · exact topo.const_not_bounds
  · exact reads.plain

lemma LoopInv.low (inv : LoopInv s t ls app label i) :
    LowPart t label i (recordedByte s.info ls app) := by
  rcases inv with ⟨zero, concrete⟩ | ⟨_, reads⟩
  · refine .inl ⟨zero, ?_⟩
    intro inp j hj
    have leading : Leading ls j := fun k hk => concrete k (by omega)
    simp only [recordedByte, if_pos leading]
  · exact .inr reads

lemma recordedByte_lt (inp : Input) (cell : ByteCell s (ls i)) :
    recordedByte s.info ls app inp i < 256 := by
  by_cases leading : Leading ls i
  · simp only [recordedByte, if_pos leading]
    omega
  · simp only [recordedByte, if_neg leading]
    exact byteValue_lt inp cell

lemma LoopInv.step (topo : Topological t) (ext : Extends s t)
    (cells : ∀ j < i + 1, ByteCell s (ls j)) (small : 8 * (i + 1) < 2 ^ 16)
    (inv : LoopInv s t ls app label i)
    (h : taintUnion fl mem t .concat ((i + 1) * 8 % 2 ^ 16)
      ⟨label, ls i, 0, if ls i = 0 then ((app i).signExtend 64).toNat else 0⟩ = some (l, s')) :
    Grows Legal t s' ∧ s'.last ≤ t.last + 1 ∧ LoopInv s s' ls app l (i + 1) := by
  have cell := cell_extends (cells i (by omega)) ext
  rw [show (i + 1) * 8 % 2 ^ 16 = 8 * (i + 1) by omega] at h
  rcases concat_step topo inv.label_le (inv.plain topo) cell h with
    ⟨zero, nextZero, rfl, rfl⟩ | ⟨symbolic, grows, pos, le, bound, same⟩
  · refine ⟨.refl, by omega, .inl ⟨rfl, ?_⟩⟩
    intro j hj
    rcases inv with ⟨_, concrete⟩ | ⟨_, reads⟩
    · by_cases last : j = i
      · rw [last]; exact nextZero
      · exact concrete j (by omega)
    · have := reads.pos
      omega
  · have met : ∃ j < i + 1, ls j ≠ 0 := by
      rcases inv with ⟨zero, _⟩ | ⟨⟨j, hj, ne⟩, _⟩
      · exact ⟨i, by omega, by omega⟩
      · exact ⟨j, by omega, ne⟩
    have notLeading : ¬ Leading ls i := by
      intro leading
      obtain ⟨j, hj, ne⟩ := met
      exact ne (leading j hj)
    refine ⟨grows, bound, .inr ⟨met, ?_⟩⟩
    refine concat_reads (topo.grows grows) grows.toExtends inv.low cell symbolic ?_ ?_ pos le same
    · intro inp
      simp only [recordedByte, if_neg notLeading, byteValue]
      by_cases zero : ls i = 0
      · simp only [if_pos zero]
        exact (signExtend_setWidth (app i) (by decide)).symm
      simp only [if_neg zero]
      exact (ext.den inp (by
        rcases cells i (by omega) with cell0 | ⟨_, le0, _⟩
        · exact absurd cell0 zero
        · exact le0)).symm
    · intro inp j hj
      exact recordedByte_lt inp (cells j hj)

/-- The whole loop: it returns while labels are left, and what it returns reads
the recorded bytes. -/
lemma slowPath_reads (cells : ∀ j < n, ByteCell s (ls j)) (small : 8 * n < 2 ^ 16)
    (symbolic : ∃ j < n, ls j ≠ 0) (k : Nat) (hk : i + k = n) (enough : k ≤ fuel)
    (topo : Topological t) (ext : Extends s t) (inv : LoopInv s t ls app label i) :
    (t.last + k < t.stackTop →
        ∃ r, slowPath fl mem ls app n fuel i label t = some r) ∧
      ∀ l s', slowPath fl mem ls app n fuel i label t = some (l, s') →
        Grows Legal t s' ∧ s'.last ≤ t.last + k ∧ Reads s' l n (recordedByte s.info ls app) := by
  induction k generalizing fuel i label t with
  | zero =>
    have finished : n ≤ i := by omega
    rw [slowPath_done fuel finished]
    refine ⟨fun _ => ⟨_, rfl⟩, ?_⟩
    rintro l s' ⟨⟩
    rcases inv with ⟨_, concrete⟩ | ⟨_, reads⟩
    · obtain ⟨j, hj, ne⟩ := symbolic
      exact absurd (concrete j (by omega)) ne
    · have same : i = n := by omega
      exact ⟨.refl, Nat.le_refl _, same ▸ reads⟩
  | succ k ih =>
    obtain ⟨fuel, rfl⟩ : ∃ f, fuel = f + 1 := ⟨fuel - 1, by omega⟩
    have cell := cell_extends (cells i (by omega)) ext
    rw [slowPath_step topo cell (by omega)]
    have before : ∀ j < i + 1, ByteCell s (ls j) := fun j hj => cells j (by omega)
    constructor
    · intro room
      have le2 : ls i ≤ t.last := cell.le
      obtain ⟨l, s', first⟩ := taintUnion_byteMove_of_room fl mem ((i + 1) * 8 % 2 ^ 16)
        ⟨label, ls i, 0, if ls i = 0 then ((app i).signExtend 64).toNat else 0⟩
        topo (.inr (.inr rfl)) (by omega) inv.label_le le2
      obtain ⟨grows, _, inv'⟩ := inv.step topo ext before (by omega) first
      have top := grows.toExtends.stackTop
      rw [first]
      exact (ih (by omega) (by omega) (topo.grows grows) (ext.trans grows.toExtends) inv').1
        (by omega)
    · intro l s' h
      obtain ⟨⟨_, _⟩, first, rest⟩ := Option.bind_eq_some_iff.mp h
      obtain ⟨grows, bound, inv'⟩ := inv.step topo ext before (by omega) first
      obtain ⟨grows', bound', reads⟩ := (ih (by omega) (by omega) (topo.grows grows)
        (ext.trans grows.toExtends) inv').2 l s' rest
      exact ⟨grows.trans grows', by omega, reads⟩

/-- In a loop of any length the last concatenation writes the size modulo 2^16. -/
lemma slowPath_size (cells : ∀ j < n, ByteCell s (ls j)) (lt : i < n) (topo : Topological t)
    (ext : Extends s t) (le : label ≤ t.last) (plain : (t.info label).op ≠ .alloca)
    (h : slowPath fl mem ls app n fuel i label t = some (l, s')) :
    l = 0 ∨ (s'.info l).op = .concat ∧ (s'.info l).size = n * 8 % 2 ^ 16 := by
  induction fuel generalizing i label t with
  | zero => simp [slowPath, show ¬ n ≤ i by omega] at h
  | succ fuel ih =>
    have cell := cell_extends (cells i lt) ext
    rw [slowPath_step topo cell lt] at h
    obtain ⟨⟨_, _⟩, first, rest⟩ := Option.bind_eq_some_iff.mp h
    by_cases last : i + 1 = n
    · rw [slowPath_done fuel (by omega)] at rest
      cases rest
      rcases concat_step topo le plain cell first with ⟨_, _, zero, _⟩ | ⟨_, _, _, _, _, same⟩
      · exact .inl zero
      obtain ⟨_, _, hop, hsize, _⟩ := (sameKey_iff _ _).mp same
      refine .inr ⟨hop, ?_⟩
      rw [hsize, last]
    · rcases concat_step topo le plain cell first with
        ⟨_, _, rfl, rfl⟩ | ⟨_, grows, _, le1, _, same⟩
      · exact ih (by omega) topo ext (Nat.zero_le _) topo.const_not_bounds rest
      obtain ⟨_, _, hop, _⟩ := (sameKey_iff _ _).mp same
      refine ih (by omega) (topo.grows grows) (ext.trans grows.toExtends) le1 ?_ rest
      simp [hop]

end Loop

/-! ## The other paths -/

section Paths

variable {fl : Flags} {mem : Nat → Nat} {s s' : Runtime} {ls : Nat → Nat}
  {app : Nat → BitVec 8} {n l : Nat}

/-- The bytes the shape path reads: those of the first cell's input, in sequence. -/
def shapeByte (s : Runtime) (ls : Nat → Nat) (inp : Input) (i : Nat) : Nat :=
  inputByte inp (s.info (ls 0)).op2 ((s.info (ls 0)).op1 + i)

section

variable (topo : Topological s) (cell : ByteCell s (ls 0)) (two : 2 ≤ n) (small : 8 * n < 2 ^ 16)

include topo cell two small

lemma loadUnion_early : earlyReturn s .load ⟨ls 0, n % 2 ^ 32, 0, 0⟩ = none := by
  have init := cell.ne_uninit topo
  have plain := cell.not_alloca topo.const
  have count : n % 2 ^ 32 = n := Nat.mod_eq_of_lt (by omega)
  have below : n ≠ kInitializingLabel := by
    simp only [kInitializingLabel]
    omega
  simp only [earlyReturn, count]
  rw [if_neg (by omega), if_neg (by simp [init, below]), if_neg (by simp [plain])]

lemma loadUnion_reads
    (h : taintUnion fl mem s .load (n * 8 % 2 ^ 16) ⟨ls 0, n % 2 ^ 32, 0, 0⟩ = some (l, s')) :
    Grows Legal s s' ∧ s'.last ≤ s.last + 1 ∧ Reads s' l n (shapeByte s ls) := by
  have le0 : ls 0 ≤ s.last := cell.le
  have move : IsByteMove .load := .inl rfl
  obtain ⟨pos, le, bound, same⟩ := taintUnion_byteMove_some topo move
    (loadUnion_early topo cell two small) h
  have grows : Grows Legal s s' := taintUnion_legal (.inl le0) (fun ne => absurd rfl ne) h
  have fields := sameKey_trans same (moveKey_fields move mem s _ _)
  rw [Nat.mod_eq_of_lt (show n < 2 ^ 32 by omega), show n * 8 % 2 ^ 16 = 8 * n by omega] at fields
  obtain ⟨hwidth, hden⟩ := (topo.grows grows).den_of_fields grows.toExtends pos le fields le0
    (fun ne => absurd rfl ne)
  obtain ⟨_, _, hop, _⟩ := (sameKey_iff _ _).mp fields
  refine ⟨grows, bound, pos, le, by simp [hop], hwidth, ?_⟩
  intro inp
  rw [hden inp]
  simp only [evalRecord, width]
  rw [two_pow_mul_eight]
  exact Nat.mod_eq_of_lt (word_lt fun i _ => inputByte_lt _ _ _)

end

lemma loadUnion_size (topo : Topological s)
    (h : taintUnion fl mem s .load (n * 8 % 2 ^ 16) ⟨ls 0, n % 2 ^ 32, 0, 0⟩ = some (l, s')) :
    l = 0 ∨ l = kInitializingLabel ∨
      (s'.info l).op = .load ∧ (s'.info l).size = n * 8 % 2 ^ 16 := by
  have move : IsByteMove .load := .inl rfl
  cases early : earlyReturn s .load ⟨ls 0, n % 2 ^ 32, 0, 0⟩ with
  | some l' =>
    have valid : isValidOp .load = true := by decide
    simp only [taintUnion, prepare, valid, byteMove_order move, early, Option.some.injEq,
      Prod.mk.injEq, Bool.true_eq_false, if_false] at h
    rw [← h.1]
    exact (byteMove_early move early).imp_right .inl
  | none =>
    obtain ⟨_, _, _, same⟩ := taintUnion_byteMove_some topo move early h
    obtain ⟨_, _, hop, hsize, _⟩ :=
      (sameKey_iff _ _).mp (sameKey_trans same (moveKey_fields move mem s _ _))
    exact .inr (.inr ⟨hop, hsize⟩)

lemma den_extract {parent i : Nat} (cell : ByteCell s l) (hop : (s.info l).op = .extract)
    (hoff : (s.info l).op2 = 8 * i) (hparent : (s.info l).l1 = parent) (ne : parent ≠ 0)
    (symbolic : l ≠ 0) (inp : Input) : den s.info inp l = byteAt (den s.info inp parent) i := by
  rcases cell with zero | ⟨pos, le, hw, _, ordered⟩
  · exact absurd zero symbolic
  have size : (s.info l).size = 8 := by simpa only [width, hop] using hw
  rw [den_eq s.info inp symbolic ordered, hw]
  simp only [evalRecord, hop, isInteger, applyOp, operand1, hparent, ne, hoff, size,
    reduceCtorEq, if_false, if_true]
  rw [two_pow_mul_eight, Nat.mod_mod, byteAt]
  rfl

lemma extracts_word (topo : Topological s) (cells : ∀ i < n, ByteCell s (ls i))
    (extracts : ExtractsMatch s ls n) (parentNe : (s.info (ls 0)).l1 ≠ 0) (inp : Input) :
    word (byteValue s.info inp ls app) n = den s.info inp (s.info (ls 0)).l1 % 256 ^ n := by
  rw [← word_byteAt]
  apply word_congr
  intro i hi
  obtain ⟨hop, hoff, hparent⟩ := extracts.1 i hi
  have symbolic : ls i ≠ 0 := by
    intro zero
    rw [zero, topo.const] at hop
    cases hop
  simp only [byteValue, if_neg symbolic]
  exact den_extract (cells i hi) hop hoff hparent parentNe symbolic inp

lemma den_input (cell : ByteCell s l) (raw : (s.info l).op = .input) (symbolic : l ≠ 0)
    (inp : Input) : den s.info inp l = inputByte inp (s.info l).op2 (s.info l).op1 := by
  rcases cell with zero | ⟨_, _, hw, _, ordered⟩
  · exact absurd zero symbolic
  · rw [den_eq s.info inp symbolic ordered, hw]
    simp only [evalRecord, raw]
    exact Nat.mod_eq_of_lt (inputByte_lt _ _ _)

lemma unionLoad_paths (fl : Flags) (mem : Nat → Nat) (app : Nat → BitVec 8) {ptr : Nat}
    (topo : Topological s) (mapped : 4096 ≤ ptr) (pos : 1 ≤ n)
    (cells : ∀ i < n, ByteCell s (ls i)) :
    (unionLoad fl mem s ptr ls app n = some (0, s) ∧ ∀ i < n, ls i = 0) ∨
    (∃ i < n, ls i ≠ 0) ∧
      (ShapeMatches s ls n ∧ unionLoad fl mem s ptr ls app n =
          (if n = 1 then some (ls 0, s)
            else taintUnion fl mem s .load (n * 8 % 2 ^ 16) ⟨ls 0, n % 2 ^ 32, 0, 0⟩) ∨
        ¬ ShapeMatches s ls n ∧ ExtractsMatch s ls n ∧
          unionLoad fl mem s ptr ls app n = some ((s.info (ls 0)).l1, s) ∨
        ¬ ShapeMatches s ls n ∧ ¬ ExtractsMatch s ls n ∧
          unionLoad fl mem s ptr ls app n = slowPath fl mem ls app n n 1 (ls 0) s) := by
  have init := (cells 0 pos).ne_uninit topo
  have size := (cells 0 pos).size topo.const
  have notNull : ¬ ptr < 4096 := by omega
  rcases constantScan_cells topo pos cells with ⟨hconst, zeros⟩ | ⟨hconst, symbolic⟩
  · refine .inl ⟨?_, zeros⟩
    simp [unionLoad, notNull, hconst, zeros 0 pos]
    decide
  refine .inr ⟨symbolic, ?_⟩
  rcases shapeScan_cells topo cells with ⟨hshape, shape⟩ | ⟨hshape, shape⟩
  · refine .inl ⟨shape, ?_⟩
    simp [unionLoad, notNull, init, size, hconst, hshape]
  right
  by_cases hop : (s.info (ls 0)).op = .extract
  · have covered := extractScan_cells (i := 0) (k := n) topo (s.info (ls 0)).l1
      (fun j _ hj => cells j (by omega))
    rw [Nat.zero_add] at covered
    rcases covered with ⟨hall, all⟩ | ⟨j, _, hj, hstop, hne⟩
    · by_cases whole : (s.info (s.info (ls 0)).l1).size = 8 * n
      · refine .inl ⟨shape, ⟨fun i hi => all i (by omega) hi, whole⟩, ?_⟩
        have eight : 8 * n = n * 8 := by omega
        simp [unionLoad, notNull, init, size, hconst, hshape, hop, hall, whole, eight]
      · refine .inr ⟨shape, fun extracts => whole extracts.2, ?_⟩
        simp [unionLoad, notNull, init, size, hconst, hshape, hall, whole]
    · refine .inr ⟨shape, fun extracts => hne (extracts.1 j hj), ?_⟩
      have short : 8 * j ≠ n * 8 := by omega
      simp [unionLoad, notNull, init, size, hconst, hshape, hstop, short]
  · refine .inr ⟨shape, fun extracts => hop (extracts.1 0 pos).1, ?_⟩
    simp [unionLoad, notNull, init, size, hconst, hshape, hop]

end Paths

/-! ## When a load is faithful -/

/-- The condition each path puts on the cells. -/
structure LoadOk (s : Runtime) (ls : Nat → Nat) (app : Nat → BitVec 8) (n : Nat) : Prop where
  shape : ShapeMatches s ls n → 8 * n < 2 ^ 16 ∧
    ∀ inp i, i < n → byteValue s.info inp ls app i = shapeByte s ls inp i
  extracts : ¬ ShapeMatches s ls n → ExtractsMatch s ls n →
    (s.info (ls 0)).l1 ≠ 0 ∧ width (s.info (s.info (ls 0)).l1) = 8 * n
  loop : ¬ ShapeMatches s ls n → ¬ ExtractsMatch s ls n → 8 * n < 2 ^ 16 ∧
    ∀ i, i < n → Leading ls i → app i = 0

section Faithful

variable {fl : Flags} {mem : Nat → Nat} {s s' : Runtime} {ls : Nat → Nat}
  {app : Nat → BitVec 8} {g : Input → Nat → Nat} {n l : Nat}

lemma faithful_of_reads (cells : ∀ i < n, ByteCell s (ls i)) (reads : Reads s' l n g)
    (bytes : ∀ inp i, i < n → g inp i < 256) :
    Faithful s s' ls app n l ↔ ∀ inp i, i < n → byteValue s.info inp ls app i = g inp i := by
  have ne : l ≠ 0 := by have := reads.pos; omega
  simp only [Faithful, if_neg ne]
  constructor
  · rintro ⟨_, _, value⟩ inp
    apply word_injective (fun i hi => byteValue_lt inp (cells i hi)) (bytes inp)
    rw [← value inp, reads.value inp]
  intro same
  refine ⟨reads.le, reads.wide, ?_⟩
  intro inp
  rw [reads.value inp]
  exact (word_congr (same inp)).symm

lemma Faithful.symbolic (faithful : Faithful s s' ls app n l) (symbolic : ∃ i < n, ls i ≠ 0) :
    l ≠ 0 ∧ l ≤ s'.last ∧ width (s'.info l) = 8 * n := by
  unfold Faithful at faithful
  split at faithful
  · obtain ⟨i, hi, ne⟩ := symbolic
    exact absurd (faithful i hi) ne
  · next ne => exact ⟨ne, faithful.1, faithful.2.1⟩

lemma not_faithful_of_size (topo : Topological s') (symbolic : ∃ i < n, ls i ≠ 0)
    (h : l = 0 ∨ l = kInitializingLabel ∨ width (s'.info l) ≠ 8 * n) :
    ¬ Faithful s s' ls app n l := by
  intro faithful
  have room := topo.room
  have top := topo.top
  obtain ⟨ne, le, wide⟩ := faithful.symbolic symbolic
  rcases h with h | h | h
  · exact ne h
  · omega
  · exact h wide

lemma loopInv_start (topo : Topological s) (cell : ByteCell s (ls 0)) :
    LoopInv s s ls app (ls 0) 1 := by
  by_cases zero : ls 0 = 0
  · refine .inl ⟨zero, ?_⟩
    intro j hj
    rw [show j = 0 by omega]
    exact zero
  have plain := cell.not_alloca topo.const
  rcases cell with cell | ⟨pos, le, hw, _, _⟩
  · exact absurd cell zero
  · refine .inr ⟨⟨0, by omega, zero⟩, pos, le, plain, hw, ?_⟩
    intro inp
    have notLeading : ¬ Leading ls 0 := fun leading => zero (leading 0 (by omega))
    simp only [word_one, recordedByte, if_neg notLeading, byteValue, if_neg zero]

/-- Cells that are consecutive bytes of one input are distinct labels, so there
are at least as many labels as cells. -/
lemma shape_cells_le (cells : ∀ i < n, ByteCell s (ls i)) (small : 8 * n < 2 ^ 16)
    (bytes : ∀ inp i, i < n → byteValue s.info inp ls app i = shapeByte s ls inp i) :
    n ≤ s.last := by
  have symbolic : ∀ i < n, ls i ≠ 0 := by
    intro i hi zero
    have ones := bytes ⟨fun _ _ => 1, fun _ => 0⟩ i hi
    have zeros := bytes ⟨fun _ _ => 0, fun _ => 0⟩ i hi
    simp only [byteValue, if_pos zero] at ones zeros
    rw [ones] at zeros
    exact absurd zeros (by simp [shapeByte, inputByte])
  have bound : ∀ i < n, 1 ≤ ls i ∧ ls i ≤ s.last := by
    intro i hi
    rcases cells i hi with zero | ⟨pos, le, _⟩
    · exact absurd zero (symbolic i hi)
    · exact ⟨pos, le⟩
  have distinct : ∀ i < n, ∀ j < n, ls i = ls j → i = j := by
    intro i hi j hj same
    by_contra differ
    -- an input that is 1 at the offset of cell `i` only
    let probe : Input := ⟨fun _ offset =>
      if offset = ((s.info (ls 0)).op1 + i) % 2 ^ 32 then 1 else 0, fun _ => 0⟩
    have atI := bytes probe i hi
    have atJ := bytes probe j hj
    have apart : ((s.info (ls 0)).op1 + j) % 2 ^ 32 ≠ ((s.info (ls 0)).op1 + i) % 2 ^ 32 := by
      omega
    simp only [byteValue, if_neg (symbolic j hj), same] at atI atJ
    rw [atI] at atJ
    simp only [shapeByte, inputByte, probe, if_neg apart] at atJ
    cases atJ
  have card : (Finset.range n).card ≤ (Finset.range s.last).card := by
    apply Finset.card_le_card_of_injOn (fun i => ls i - 1)
    · intro i hi
      have hi := Finset.mem_range.mp hi
      have := bound i hi
      simp only [Finset.coe_range, Set.mem_Iio]
      omega
    · intro i hi j hj same
      have hi := Finset.mem_range.mp hi
      have hj := Finset.mem_range.mp hj
      have boundI := bound i hi
      have boundJ := bound j hj
      exact distinct i hi j hj (by simp only at same; omega)
  rwa [Finset.card_range, Finset.card_range] at card

lemma recorded_eq_iff :
    (∀ inp i, i < n → byteValue s.info inp ls app i = recordedByte s.info ls app inp i) ↔
      ∀ i < n, Leading ls i → app i = 0 := by
  constructor
  · intro same i hi leading
    have value := same ⟨fun _ _ => 0, fun _ => 0⟩ i hi
    simp only [recordedByte, if_pos leading, byteValue, if_pos (leading i (by omega))] at value
    exact BitVec.eq_of_toNat_eq value
  intro zeros inp i hi
  by_cases leading : Leading ls i
  · simp only [recordedByte, if_pos leading, byteValue, if_pos (leading i (by omega)),
      zeros i hi leading]
    rfl
  · simp only [recordedByte, if_neg leading]

/-- The outcome of a path over cells that are not all concrete. -/
def PathOk (s : Runtime) (ls : Nat → Nat) (app : Nat → BitVec 8) (n : Nat)
    (r : Option (Nat × Runtime)) : Prop :=
  (LoadOk s ls app n → s.last + n < s.stackTop → r.isSome = true) ∧
    ∀ l s', r = some (l, s') → (Faithful s s' ls app n l ↔ LoadOk s ls app n)

lemma loadOk_of_shape (shape : ShapeMatches s ls n) :
    LoadOk s ls app n ↔ 8 * n < 2 ^ 16 ∧
      ∀ inp i, i < n → byteValue s.info inp ls app i = shapeByte s ls inp i := by
  constructor
  · intro ok
    exact ok.shape shape
  · intro ok
    exact ⟨fun _ => ok, fun no => absurd shape no, fun no => absurd shape no⟩

lemma shape_path_one (cell : ByteCell s (ls 0))
    (symbolic : ls 0 ≠ 0) (shape : ShapeMatches s ls 1) : PathOk s ls app 1 (some (ls 0, s)) := by
  have value : ∀ inp, byteValue s.info inp ls app 0 = den s.info inp (ls 0) := by
    intro inp
    simp only [byteValue, if_neg symbolic]
  have ok : LoadOk s ls app 1 := by
    refine (loadOk_of_shape shape).mpr ⟨by decide, ?_⟩
    intro inp i hi
    rw [show i = 0 by omega, value inp, den_input cell shape.1 symbolic inp]
    rfl
  refine ⟨fun _ _ => rfl, ?_⟩
  rintro l s' ⟨⟩
  refine ⟨fun _ => ok, fun _ => ?_⟩
  rcases cell with cell | ⟨_, le, hw, _⟩
  · exact absurd cell symbolic
  · simp only [Faithful, if_neg symbolic]
    refine ⟨le, hw, ?_⟩
    intro inp
    rw [word_one, value inp]

lemma shape_path (topo : Topological s) (cells : ∀ i < n, ByteCell s (ls i))
    (symbolic : ∃ i < n, ls i ≠ 0) (two : 2 ≤ n) (shape : ShapeMatches s ls n) :
    PathOk s ls app n (taintUnion fl mem s .load (n * 8 % 2 ^ 16) ⟨ls 0, n % 2 ^ 32, 0, 0⟩) := by
  have cell := cells 0 (by omega)
  constructor
  · intro ok room
    obtain ⟨small, bytes⟩ := (loadOk_of_shape shape).mp ok
    have count := shape_cells_le cells small bytes
    have le0 : ls 0 ≤ s.last := cell.le
    have same : n % 2 ^ 32 = n := Nat.mod_eq_of_lt (by omega)
    obtain ⟨l, s', h⟩ := taintUnion_byteMove_of_room fl mem (n * 8 % 2 ^ 16)
      ⟨ls 0, n % 2 ^ 32, 0, 0⟩ topo (.inl rfl) (by omega) le0 (by rw [same]; exact count)
    rw [h]
    rfl
  · intro l s' h
    rw [loadOk_of_shape shape]
    by_cases small : 8 * n < 2 ^ 16
    · obtain ⟨_, _, reads⟩ := loadUnion_reads topo cell two small h
      rw [faithful_of_reads cells reads fun inp i _ => inputByte_lt _ _ _]
      exact ⟨fun bytes => ⟨small, bytes⟩, fun ok => ok.2⟩
    have topo' : Topological s' := topo.grows
      (taintUnion_legal (.inl cell.le) (fun ne => absurd rfl ne) h)
    have wrong : ¬ Faithful s s' ls app n l := by
      apply not_faithful_of_size topo' symbolic
      rcases loadUnion_size topo h with zero | init | ⟨hop, hsize⟩
      · exact .inl zero
      · exact .inr (.inl init)
      · simp only [width, hop]
        omega
    exact ⟨fun faithful => absurd faithful wrong, fun ok => absurd ok.1 small⟩

section

variable (topo : Topological s) (pos : 1 ≤ n) (cells : ∀ i < n, ByteCell s (ls i))
  (symbolic : ∃ i < n, ls i ≠ 0)

include topo pos cells symbolic

lemma extract_path (noShape : ¬ ShapeMatches s ls n) (extracts : ExtractsMatch s ls n) :
    PathOk s ls app n (some ((s.info (ls 0)).l1, s)) := by
  have iff : LoadOk s ls app n ↔
      (s.info (ls 0)).l1 ≠ 0 ∧ width (s.info (s.info (ls 0)).l1) = 8 * n := by
    constructor
    · intro ok
      exact ok.extracts noShape extracts
    · intro ok
      exact ⟨fun shape => absurd shape noShape, fun _ _ => ok, fun _ no => absurd extracts no⟩
  refine ⟨fun _ _ => rfl, ?_⟩
  rintro l s' ⟨⟩
  rw [iff]
  constructor
  · intro faithful
    by_contra wrong
    refine not_faithful_of_size topo symbolic ?_ faithful
    by_cases zero : (s.info (ls 0)).l1 = 0
    · exact .inl zero
    · exact .inr (.inr fun wide => wrong ⟨zero, wide⟩)
  · rintro ⟨ne, wide⟩
    simp only [Faithful, if_neg ne]
    have hop := (extracts.1 0 pos).1
    refine ⟨?_, wide, ?_⟩
    · rcases cells 0 pos with zero | ⟨_, le, _, _, ordered⟩
      · rw [zero, topo.const] at hop
        cases hop
      · have := ordered.1
        omega
    · intro inp
      rw [extracts_word topo cells extracts ne inp, ← two_pow_mul_eight, ← wide,
        Nat.mod_eq_of_lt (den_lt _ _ _)]

lemma loop_path (noShape : ¬ ShapeMatches s ls n) (noExtracts : ¬ ExtractsMatch s ls n) :
    PathOk s ls app n (slowPath fl mem ls app n n 1 (ls 0) s) := by
  have iff : LoadOk s ls app n ↔
      8 * n < 2 ^ 16 ∧ ∀ i < n, Leading ls i → app i = 0 := by
    constructor
    · intro ok
      exact ok.loop noShape noExtracts
    · intro ok
      exact ⟨fun shape => absurd shape noShape, fun _ yes => absurd yes noExtracts, fun _ _ => ok⟩
  have inv : LoopInv s s ls app (ls 0) 1 := loopInv_start topo (cells 0 pos)
  rw [PathOk, iff]
  by_cases small : 8 * n < 2 ^ 16
  · have loop : (s.last + (n - 1) < s.stackTop →
          ∃ r, slowPath fl mem ls app n n 1 (ls 0) s = some r) ∧ _ :=
      slowPath_reads cells small symbolic (n - 1) (by omega) (by omega) topo (.refl s) inv
    refine ⟨fun _ room => ?_, ?_⟩
    · obtain ⟨r, h⟩ := loop.1 (by omega)
      rw [h]
      rfl
    intro l s' h
    obtain ⟨_, _, reads⟩ := loop.2 l s' h
    rw [faithful_of_reads cells reads fun inp i hi => recordedByte_lt inp (cells i hi),
      recorded_eq_iff]
    exact ⟨fun zeros => ⟨small, zeros⟩, fun ok => ok.2⟩
  · refine ⟨fun ok => absurd ok.1 small, ?_⟩
    intro l s' h
    have size := slowPath_size cells (by omega) topo (.refl s) inv.label_le
      (inv.plain topo) h
    have wrong : ¬ Faithful s s' ls app n l := by
      intro faithful
      obtain ⟨ne, -, wide⟩ := faithful.symbolic symbolic
      rcases size with size | ⟨hop, size⟩
      · exact ne size
      · simp only [width, hop] at wide
        omega
    exact ⟨fun faithful => absurd faithful wrong, fun ok => absurd ok.1 small⟩

end

lemma unionLoad_pathOk {ptr : Nat} (topo : Topological s) (mapped : 4096 ≤ ptr) (pos : 1 ≤ n)
    (cells : ∀ i < n, ByteCell s (ls i)) (symbolic : ∃ i < n, ls i ≠ 0) :
    PathOk s ls app n (unionLoad fl mem s ptr ls app n) := by
  rcases unionLoad_paths fl mem app topo mapped pos cells with ⟨_, zeros⟩ | ⟨_, path⟩
  · obtain ⟨i, hi, ne⟩ := symbolic
    exact absurd (zeros i hi) ne
  rcases path with ⟨shape, hload⟩ | ⟨noShape, extracts, hload⟩ | ⟨noShape, noExtracts, hload⟩
  · rw [hload]
    by_cases one : n = 1
    · subst one
      obtain ⟨i, _, ne⟩ := symbolic
      exact shape_path_one (cells 0 pos) (by rwa [show i = 0 by omega] at ne) shape
    · rw [if_neg one]
      exact shape_path topo cells symbolic (by omega) shape
  · rw [hload]
    exact extract_path topo pos cells symbolic noShape extracts
  · rw [hload]
    exact loop_path topo pos cells symbolic noShape noExtracts

/-- The label a load of a few bytes returns, none of whose cells is a part of bounds. -/
structure Loaded (s s' : Runtime) (n l : Nat) : Prop where
  grows : Grows Legal s s'
  bound : s'.last ≤ s.last + n
  le : l ≤ s'.last
  plain : (s'.info l).op ≠ .alloca

lemma Loaded.of_reads (grows : Grows Legal s s') (bound : s'.last ≤ s.last + n)
    (reads : Reads s' l n g) : Loaded s s' n l :=
  ⟨grows, bound, reads.le, reads.plain⟩

lemma unionLoad_loaded {ptr : Nat} (topo : Topological s) (mapped : 4096 ≤ ptr) (pos : 1 ≤ n)
    (small : 8 * n < 2 ^ 16) (cells : ∀ i < n, ByteCell s (ls i))
    (parent : (s.info (ls 0)).op = .extract → (s.info (s.info (ls 0)).l1).op ≠ .alloca)
    (h : unionLoad fl mem s ptr ls app n = some (l, s')) : Loaded s s' n l := by
  have cell := cells 0 pos
  rcases unionLoad_paths fl mem app topo mapped pos cells with ⟨zero, _⟩ | ⟨symbolic, path⟩
  · rw [zero] at h
    cases h
    exact ⟨.refl, by omega, Nat.zero_le _, topo.const_not_bounds⟩
  rcases path with ⟨_, hload⟩ | ⟨_, extracts, hload⟩ | ⟨_, _, hload⟩
  · rw [hload] at h
    by_cases one : n = 1
    · rw [if_pos one] at h
      cases h
      exact ⟨.refl, by omega, cell.le, cell.not_alloca topo.const⟩
    · rw [if_neg one] at h
      obtain ⟨grows, bound, reads⟩ := loadUnion_reads topo cell (by omega) small h
      exact .of_reads grows (by omega) reads
  · rw [hload] at h
    cases h
    have extract := (extracts.1 0 pos).1
    refine ⟨.refl, by omega, ?_, parent extract⟩
    rcases cell with zero | ⟨_, le, _, _, ordered⟩
    · rw [zero, topo.const] at extract
      cases extract
    · have := ordered.1
      omega
  · rw [hload] at h
    obtain ⟨grows, bound, reads⟩ := (slowPath_reads cells small symbolic (n - 1) (by omega)
      (by omega) topo (.refl s) (loopInv_start topo cell)).2 l s' h
    exact .of_reads grows (by omega) reads

end Faithful

/-- `__taint_union_load` over cells that each hold a concrete byte or a label of
width 8. With labels left the load returns, and the label it returns stands for
the little-endian word of the bytes, is `8 * n` bits wide and is zero only for
concrete bytes, exactly when all cells are concrete or `LoadOk` holds: on the
shape path the cells really are consecutive bytes of the first cell's input, on
the extract path the parent's value has the width of the load, in the loop the
concrete bytes ahead of the first symbolic one are zero, and a size that is
written fits 16 bits. -/
theorem unionLoad_faithful_iff (fl : Flags) (mem : Nat → Nat) (s : Runtime) (ptr : Nat)
    (ls : Nat → Nat) (app : Nat → BitVec 8) (n : Nat) (topo : Topological s)
    (mapped : 4096 ≤ ptr) (pos : 1 ≤ n) (cells : ∀ i, i < n → ByteCell s (ls i)) :
    ((∀ i, i < n → ls i = 0) ∨ LoadOk s ls app n → s.last + n < s.stackTop →
        (unionLoad fl mem s ptr ls app n).isSome = true) ∧
      ∀ l s', unionLoad fl mem s ptr ls app n = some (l, s') →
        (Faithful s s' ls app n l ↔ (∀ i, i < n → ls i = 0) ∨ LoadOk s ls app n) := by
  rcases unionLoad_paths fl mem app topo mapped pos cells with
    ⟨hzero, zeros⟩ | ⟨symbolic, _⟩
  · rw [hzero]
    refine ⟨fun _ _ => rfl, ?_⟩
    rintro l s' ⟨⟩
    exact ⟨fun h => .inl h, fun _ => zeros⟩
  have mixed : ¬ ∀ i < n, ls i = 0 := by
    intro zeros
    obtain ⟨i, hi, ne⟩ := symbolic
    exact ne (zeros i hi)
  rw [or_iff_right mixed]
  exact unionLoad_pathOk topo mapped pos cells symbolic

/-- An input byte followed by a concrete one. -/
theorem unionLoad_faithful_iff_mixed_cells : let t := tableOf [⟨0, 0, 0, 0, .input, 8, 0⟩] 1000
    let ls : Nat → Nat := fun i => if i = 0 then 1 else 0
    let app : Nat → BitVec 8 := fun _ => 65
    (unionLoad ⟨true, true, false, true⟩ (fun _ => 0) t 4096 ls app 2).isSome = true ∧
      ∀ l s', unionLoad ⟨true, true, false, true⟩ (fun _ => 0) t 4096 ls app 2 = some (l, s') →
        Faithful t s' ls app 2 l := by
  intro t ls app
  have wf : WellFormed t := tableOf_wellFormed (by decide) (by decide) (by decide)
  have cells : ∀ i, i < 2 → ByteCell t (ls i) := by
    intro i hi
    rcases (by omega : i = 0 ∨ i = 1) with rfl | rfl
    · exact .inr ⟨by decide, by decide, rfl, by decide, by decide, fun _ => by decide⟩
    · exact .inl rfl
  have ok : LoadOk t ls app 2 := by
    have noShape : ¬ ShapeMatches t ls 2 := fun shape =>
      absurd (shape.2 1 (by decide) (by decide)) (by decide)
    refine ⟨fun shape => absurd shape noShape, ?_, ?_⟩
    · intro _ extracts
      exact absurd (extracts.1 0 (by decide)).1 (by decide)
    · intro _ _
      refine ⟨by decide, fun i _ leading => ?_⟩
      exact absurd (leading 0 (by omega)) (by decide)
  have load := unionLoad_faithful_iff ⟨true, true, false, true⟩ (fun _ => 0) t 4096 ls app 2
    wf.toTopological (by decide) (by decide) cells
  exact ⟨load.1 (.inr ok) (by decide), fun l s' h => (load.2 l s' h).mpr (.inr ok)⟩

/-- The concrete byte 'A' followed by an input byte: on the input 'B' the cells
hold 0x4241 and the label that is returned stands for 0x4200. -/
theorem unionLoad_leading_concrete_byte : let t := tableOf [⟨0, 0, 0, 0, .input, 8, 0⟩] 1000
    let ls : Nat → Nat := fun i => if i = 0 then 0 else 1
    let app : Nat → BitVec 8 := fun _ => 65
    let inp : Input := ⟨fun _ _ => 66, fun _ => 0⟩
    WellFormed t ∧ (∀ i, i < 2 → ByteCell t (ls i)) ∧
      ∃ s', unionLoad ⟨false, false, false, false⟩ (fun _ => 0) t 4096 ls app 2 = some (2, s') ∧
        den s'.info inp 2 = 0x4200 ∧ word (byteValue t.info inp ls app) 2 = 0x4241 ∧
        ¬ Faithful t s' ls app 2 2 := by
  intro t ls app inp
  have cells : ∀ i, i < 2 → ByteCell t (ls i) := by
    intro i hi
    rcases (by omega : i = 0 ∨ i = 1) with rfl | rfl
    · exact .inl rfl
    · exact .inr ⟨by decide, by decide, rfl, by decide, by decide, fun _ => by decide⟩
  have run : (unionLoad ⟨false, false, false, false⟩ (fun _ => 0) t 4096 ls app 2).map
      (fun r => (r.1, den r.2.info inp r.1)) = some (2, 0x4200) := by decide
  obtain ⟨⟨l, s'⟩, load, value⟩ := Option.map_eq_some_iff.mp run
  simp only [Prod.mk.injEq] at value
  obtain ⟨rfl, returned⟩ := value
  have expected : word (byteValue t.info inp ls app) 2 = 0x4241 := by decide
  refine ⟨tableOf_wellFormed (by decide) (by decide) (by decide), cells, s', load, returned,
    expected, ?_⟩
  intro faithful
  have value := faithful.2.2 inp
  rw [returned, expected] at value
  cases value

end LoadSoundness
