import SymSan.ComparedBytes

/-!
# Comparisons of strings

`__taint_strcmp` and `__taint_strncmp` compare two ranges of bytes. How many bytes is decided
by the strings of the run: by the length of one whose first byte has no label or, in `strcmp`,
by that of the second string. On another input a string may end earlier, and the bytes behind
its end are compared as well.
-/

namespace StringLabels

open LabelTable RuntimeOps ComparedBytes

/-- A string in memory. -/
structure CString (mem : Nat → Nat) where
  addr : Nat
  shadow : Nat
  strlen : Nat
  inner : ∀ i < strlen, mem (addr + i) ≠ 0
  ends : mem (addr + strlen) = 0

section

variable {mem : Nat → Nat} (fl : Flags) (m : Machine) (s1 s2 : CString mem) (n : Nat)

def taintBytes : Option (Nat × Runtime) :=
  (readSide fl mem m m.table s1.shadow s1.addr n).bind fun r1 =>
  (readSide fl mem m r1.2 s2.shadow s2.addr n).bind fun r2 =>
  TaintUnion.taintUnion fl mem r2.2 .fmemcmp (n % 2 ^ 16) ⟨r1.1, r2.1, s1.addr, s2.addr⟩

/-- The number of bytes that are compared; only `strncmp` has a limit. -/
def comparedSize : Option Nat → Nat
  | none => if m.shadow s1.addr ≠ 0 then s2.strlen + 1 else s1.strlen + 1
  | some n =>
    let n := if m.shadow s1.addr = 0 ∧ s1.strlen < n - 1 then s1.strlen + 1 else n
    if m.shadow s2.addr = 0 ∧ s2.strlen < n - 1 then s2.strlen + 1 else n

def taintStrcmp : Option (Nat × Runtime) := taintBytes fl m s1 s2 (comparedSize m s1 s2 none)

def taintStrncmp : Option (Nat × Runtime) :=
  if n = 0 then some (0, m.table) else taintBytes fl m s1 s2 (comparedSize m s1 s2 (some n))

/-- The call without and with a limit. -/
def taintStr (limit : Option Nat) : Option (Nat × Runtime) :=
  limit.elim (taintStrcmp fl m s1 s2) (taintStrncmp fl m s1 s2)

/-- The result is 0: up to the limit, bytes with no common end before them are equal. -/
def Same (limit : Option Nat) (a b : Nat → Nat) : Prop :=
  ∀ i, (∀ n ∈ limit, i < n) → (∀ j < i, a j ≠ 0 ∨ b j ≠ 0) → a i = b i

/-- The bytes at place `k` may be `x` and `y` on some input: those without a label stay. -/
def Possible (k x y : Nat) : Prop :=
  (x < 256 ∧ (m.shadow (s1.addr + k) = 0 → x = mem (s1.addr + k))) ∧
    y < 256 ∧ (m.shadow (s2.addr + k) = 0 → y = mem (s2.addr + k))

/-- The bytes at place `i` may differ and be compared though the strings have ended before, or not
be compared though they have not ended. -/
def Misjudged (limit : Option Nat) (i : Nat) : Prop :=
  (∃ x y, x ≠ y ∧ Possible m s1 s2 i x y) ∧
    (i < n ∧ (∃ j < i, Possible m s1 s2 j 0 0 ∧ ∀ k < j, ∃ x, Possible m s1 s2 k x x) ∨
      n ≤ i ∧ (∀ top ∈ limit, i < top) ∧ ∀ k < i, ∃ x, x ≠ 0 ∧ Possible m s1 s2 k x x)

/-- Up to place `i` the labelled bytes take any values. -/
def Free {ι : Type} (bytes : ι → Nat → Nat) (i : Nat) : Prop :=
  ∀ f g : Nat → Nat, (∀ k, f k < 256 ∧ g k < 256) → ∃ inp, ∀ k ≤ i,
    (m.shadow (s1.addr + k) ≠ 0 → bytes inp (s1.addr + k) = f k) ∧
      (m.shadow (s2.addr + k) ≠ 0 → bytes inp (s2.addr + k) = g k)

end

variable {mem : Nat → Nat} {fl : Flags} {m : Machine} {s1 s2 : CString mem} {n : Nat}
  {limit : Option Nat} {a b : Nat → Nat}

/-- The first difference lies behind the bytes compared and no common end before it, or before
the last of them lies a first common end. -/
lemma same_iff (within : ∀ top ∈ limit, n ≤ top) (possible : ∀ k, Possible m s1 s2 k (a k) (b k))
    (right : ∀ i, ¬ Misjudged m s1 s2 n limit i) : (∀ i < n, a i = b i) ↔ Same limit a b := by
  constructor
  · intro equal i low apart
    by_contra differs
    obtain ⟨first, least⟩ : ∃ first, a first ≠ b first ∧ ∀ k < first, a k = b k := by
      have some : ∃ k, a k ≠ b k := ⟨i, differs⟩
      exact ⟨Nat.find some, Nat.find_spec some, fun k lt => not_not.mp (Nat.find_min some lt)⟩
    have upTo : first ≤ i := Nat.not_lt.mp fun lt => differs (least.2 i lt)
    refine right first ⟨⟨_, _, least.1, possible first⟩, .inr ⟨?_, ?_, ?_⟩⟩
    · exact Nat.not_lt.mp fun lt => least.1 (equal first lt)
    · exact fun top is => Nat.lt_of_le_of_lt upTo (low top is)
    · intro k lt
      have same := least.2 k lt
      refine ⟨a k, ?_, by simpa only [← same] using possible k⟩
      rcases apart k (by omega) with ne | ne
      · exact ne
      · rwa [same]
  · intro same i lt
    by_contra differs
    have low : ∀ k ≤ i, ∀ top ∈ limit, k < top := fun k le top is => by
      have := within top is
      omega
    have ended : ∃ j, j < i ∧ a j = 0 ∧ b j = 0 := by
      by_contra none
      refine differs (same i (low i (Nat.le_refl i)) fun j below => ?_)
      by_contra both
      simp only [not_or, not_not] at both
      exact none ⟨j, below, both⟩
    have spec := Nat.find_spec ended
    refine right i ⟨⟨_, _, differs, possible i⟩, .inl ⟨lt, Nat.find ended, spec.1, ?_, ?_⟩⟩
    · simpa only [spec.2.1, spec.2.2] using possible (Nat.find ended)
    · intro k below
      have equal : a k = b k := by
        refine same k (low k (by omega)) fun j lower => ?_
        by_contra both
        simp only [not_or, not_not] at both
        exact Nat.find_min ended (Nat.lt_trans lower below) ⟨by omega, both⟩
      exact ⟨a k, by simpa only [← equal] using possible k⟩

lemma comparedSize_within (some : limit ≠ some 0) :
    ∀ k ∈ limit, comparedSize m s1 s2 limit ≤ k := by
  cases limit with
  | none =>
    rintro k ⟨⟩
  | some k =>
    have positive : k ≠ 0 := fun zero => some (zero ▸ rfl)
    simp only [comparedSize, Option.mem_def, Option.some.injEq, forall_eq']
    split <;> split <;> omega

lemma taintStr_record {l : Nat} {s' : Runtime} (made : taintStr fl m s1 s2 limit = some (l, s'))
    (symbolic : l ≠ 0) (init : l ≠ kInitializingLabel) :
    limit ≠ some 0 ∧ (s'.info l).op = .fmemcmp ∧
      (s'.info l).size = comparedSize m s1 s2 limit % 2 ^ 16 := by
  have some : limit ≠ some 0 := by
    rintro rfl
    cases made
    exact symbolic rfl
  have made : taintBytes fl m s1 s2 (comparedSize m s1 s2 limit) = .some (l, s') := by
    cases limit with
    | none => exact made
    | some n => exact (if_neg (show n ≠ 0 from fun zero => some (zero ▸ rfl))).symm.trans made
  obtain ⟨r1, -, made⟩ := Option.bind_eq_some_iff.mp made
  obtain ⟨r2, -, made⟩ := Option.bind_eq_some_iff.mp made
  obtain ⟨key, orig, prepared, same⟩ := fmemcmp_found made symbolic init
  obtain ⟨-, -, op, size, -⟩ := (sameKey_iff _ _).mp same
  obtain ⟨-, -, keySize, keyOp | ⟨xor, -⟩⟩ := TaintUnion.prepare_key_fields prepared
  · exact ⟨some, op.trans keyOp, size.trans keySize⟩
  · cases xor

section Inputs

variable {ι : Type} {bytes : ι → Nat → Nat} {now : ι} {s1 s2 : CString (bytes now)}
  (unlabelled : ∀ x, m.shadow x = 0 → ∀ inp, bytes inp x = bytes now x)

include unlabelled

/-- Bytes that are possible up to a place are those of some input if labelled ones are free. -/
lemma Free.input {i : Nat} (free : Free m s1 s2 bytes i) {f g : Nat → Nat}
    (possible : ∀ k, Possible m s1 s2 k (f k) (g k)) :
    ∃ inp, ∀ k ≤ i, bytes inp (s1.addr + k) = f k ∧ bytes inp (s2.addr + k) = g k := by
  obtain ⟨inp, values⟩ := free f g fun k => ⟨(possible k).1.1, (possible k).2.1⟩
  refine ⟨inp, fun k le => ⟨?_, ?_⟩⟩
  · by_cases zero : m.shadow (s1.addr + k) = 0
    · rw [unlabelled _ zero, (possible k).1.2 zero]
    · exact (values k le).1 zero
  · by_cases zero : m.shadow (s2.addr + k) = 0
    · rw [unlabelled _ zero, (possible k).2.2 zero]
    · exact (values k le).2 zero

lemma Misjudged.input (small : ∀ inp x, bytes inp x < 256) {i : Nat}
    (bad : Misjudged m s1 s2 n limit i) (free : Free m s1 s2 bytes i) :
    ∃ inp, ¬ ((∀ i < n, bytes inp (s1.addr + i) = bytes inp (s2.addr + i)) ↔
      Same limit (fun i => bytes inp (s1.addr + i)) fun i => bytes inp (s2.addr + i)) := by
  have current : ∀ k, Possible m s1 s2 k (bytes now (s1.addr + k)) (bytes now (s2.addr + k)) :=
    fun k => ⟨⟨small _ _, fun _ => rfl⟩, small _ _, fun _ => rfl⟩
  obtain ⟨⟨x, y, ne, differ⟩, ⟨lt, j, below, ended, equal⟩ | ⟨ge, low, nonzero⟩⟩ := bad
  · have pairs : ∀ k, ∃ p : Nat × Nat, Possible m s1 s2 k p.1 p.2 ∧ (k < j → p.1 = p.2) ∧
        (k = j → p = (0, 0)) ∧ (k = i → p.1 ≠ p.2) := by
      intro k
      rcases Nat.lt_trichotomy k j with less | rfl | more
      · obtain ⟨z, possible⟩ := equal k less
        exact ⟨(z, z), possible, fun _ => rfl, by omega, by omega⟩
      · exact ⟨(0, 0), ended, by omega, fun _ => rfl, by omega⟩
      · by_cases here : k = i
        · exact ⟨(x, y), here ▸ differ, by omega, by omega, fun _ => ne⟩
        · exact ⟨(_, _), current k, by omega, by omega, fun h => absurd h here⟩
    choose p possible before there last using pairs
    obtain ⟨inp, values⟩ := free.input unlabelled possible
    refine ⟨inp, fun iff => last i rfl ?_⟩
    have same : Same limit (fun i => bytes inp (s1.addr + i)) fun i => bytes inp (s2.addr + i) := by
      intro k _ apart
      have upTo : k ≤ j := by
        by_contra behind
        have zero := values j (by omega)
        rw [there j rfl] at zero
        rcases apart j (by omega) with ne | ne
        · exact ne zero.1
        · exact ne zero.2
      simp only [(values k (by omega)).1, (values k (by omega)).2]
      rcases Nat.lt_or_eq_of_le upTo with less | rfl
      · exact before k less
      · rw [there k rfl]
    have equal := iff.mpr same i lt
    rwa [(values i (Nat.le_refl i)).1, (values i (Nat.le_refl i)).2] at equal
  · have pairs : ∀ k, ∃ p : Nat × Nat, Possible m s1 s2 k p.1 p.2 ∧ (k < i → p.1 = p.2 ∧ p.1 ≠ 0) ∧
        (k = i → p.1 ≠ p.2) := by
      intro k
      rcases Nat.lt_trichotomy k i with less | rfl | more
      · obtain ⟨z, nz, possible⟩ := nonzero k less
        exact ⟨(z, z), possible, fun _ => ⟨rfl, nz⟩, by omega⟩
      · exact ⟨(x, y), differ, by omega, fun _ => ne⟩
      · exact ⟨(_, _), current k, by omega, by omega⟩
    choose p possible before last using pairs
    obtain ⟨inp, values⟩ := free.input unlabelled possible
    have equal : ∀ k < i, bytes inp (s1.addr + k) = bytes inp (s2.addr + k) := fun k less => by
      rw [(values k (by omega)).1, (values k (by omega)).2, (before k less).1]
    refine ⟨inp, fun iff => last i rfl ?_⟩
    have final := iff.mp (fun k less => equal k (by omega)) i low fun k less => .inl (by
      simp only [(values k (by omega)).1]
      exact (before k less).2)
    simpa only [(values i (Nat.le_refl i)).1, (values i (Nat.le_refl i)).2] using final

end Inputs

/-- "A" and an input byte are at 8192; at 12288 is "A", with another byte behind its end. -/
def sampleBytes (inp x : Nat) : Nat :=
  if x = 8193 then inp % 256 else if x = 8192 ∨ x = 12288 then 65 else if x = 12290 then 7 else 0

def sampleFirst : CString (sampleBytes 66) := ⟨8192, 32768, 2, by decide, rfl⟩

def sampleSecond : CString (sampleBytes 66) := ⟨12288, 49152, 1, by decide, rfl⟩

def sampleMachine : Machine :=
  ⟨TableGrowth.tableOf [⟨0, 0, 0, 0, .input, 8, 0⟩] 1000, fun x => if x = 8193 then 1 else 0⟩

lemma sample_unlabelled (x : Nat) (none : sampleMachine.shadow x = 0) (inp : Nat) :
    sampleBytes inp x = sampleBytes 66 x := by
  have other : x ≠ 8193 := by
    rintro rfl
    cases none
  simp only [sampleBytes, if_neg other]

lemma sample_small (inp x : Nat) : sampleBytes inp x < 256 := by
  unfold sampleBytes
  split
  · omega
  split
  · decide
  split
  · decide
  · decide

end StringLabels
