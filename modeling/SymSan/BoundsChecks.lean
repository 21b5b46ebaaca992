import SymSan.StackFrames

/-!
# Checking an access against its bounds

`__taint_check_bounds` compares the address of an access with the bounds recorded for its
label. Lower bound, upper bound, address and length are 64-bit numbers and so is the end of
the access, which wraps around for a large length. A wrapped end is noticed when it is below
the allocation, not when it comes to lie inside it. An access of no bytes is checked like any
other.
-/

namespace BoundsChecks

open LabelTable RuntimeOps StackFrames

/-- The flags of `__taint_trace_memerr` that the check passes. -/
inductive MemError where
  | uaf | olb | oub | ubi | null
  deriving DecidableEq, Repr

/-- `__taint_check_bounds`: the error that is reported. The process ends with the report if
`exit_on_memerror` is set. -/
def checkBounds (fl : Flags) (s : Runtime) (addrLabel addr size : Nat) : Option MemError :=
  if fl.traceBounds then
    if addr = 0 then some .null
    else if addrLabel = kInitializingLabel then some .ubi
    else
      let info := s.info addrLabel
      if info.op = .free then some .uaf
      else if info.op = .alloca then
        if addr < info.op1 then some .olb
        else if info.op2 < (addr + size) % 2 ^ 64 ∨ (addr + size) % 2 ^ 64 < info.op1 then
          some .oub
        else none
      else none
  else none

/-- A null pointer is outside every allocation. -/
def isOutOfBounds : MemError → Bool
  | .olb | .oub | .null => true
  | .uaf | .ubi => false

def ReportsOutOfBounds (fl : Flags) (s : Runtime) (addrLabel addr size : Nat) : Prop :=
  ∃ error, checkBounds fl s addrLabel addr size = some error ∧ isOutOfBounds error = true

/-- The label stands for an allocation of `n` elements of `e` bytes from `b` on. -/
structure Recorded (s : Runtime) (label b n e : Nat) : Prop where
  initialized : label ≠ kInitializingLabel
  kind : (s.info label).op = .alloca
  lower : (s.info label).op1 = b
  upper : (s.info label).op2 = (b + n * e) % 2 ^ 64

lemma traceAlloca_recorded {fl : Flags} (on : fl.traceBounds = true) (a : AllocaCall)
    {m : Machine} (positive : 0 < m.table.stackTop)
    (bound : m.table.stackTop ≤ kInitializingLabel) :
    Recorded (traceAlloca fl a m).2.table (traceAlloca fl a m).1 a.base a.size a.elemSize := by
  have record : (traceAlloca fl a m).2.table.info (traceAlloca fl a m).1 = a.record := by
    simp [traceAlloca, on]
  have label : (traceAlloca fl a m).1 = nextBounds m.table := by simp [traceAlloca, on]
  have le : m.table.stackTop ≤ 4294967295 := bound
  constructor
  · rw [label, nextBounds]
    omega
  all_goals
    rw [record]
    rfl

/-- The bytes of an access are bytes of the allocation. -/
def Within (b n e addr size : Nat) : Prop :=
  ∀ x, addr ≤ x → x < addr + size → b ≤ x ∧ x < b + n * e

/-- The end of the access wraps around the address space and comes to lie in the
allocation. -/
def WrapsInside (b n e addr size : Nat) : Prop :=
  b ≤ addr ∧ 2 ^ 64 ≤ addr + size ∧ b ≤ addr + size - 2 ^ 64 ∧ addr + size - 2 ^ 64 ≤ b + n * e

/-- An access of no bytes at an address that is neither in the allocation nor at its end. -/
def EmptyOutside (b n e addr size : Nat) : Prop := size = 0 ∧ (addr < b ∨ b + n * e < addr)

section Check

variable {fl : Flags} {s : Runtime} {label b n e addr size : Nat}

lemma within_iff : Within b n e addr size ↔ size = 0 ∨ (b ≤ addr ∧ addr + size ≤ b + n * e) := by
  constructor
  · intro within
    by_cases empty : size = 0
    · exact .inl empty
    have first := within addr (Nat.le_refl _) (by omega)
    have last := within (addr + size - 1) (by omega) (by omega)
    exact .inr (by omega)
  · intro ends x low high
    omega

/-- Away from null the report depends on the recorded bounds only. -/
lemma reports_iff (on : fl.traceBounds = true) (recorded : Recorded s label b n e)
    (nonnull : addr ≠ 0) : ReportsOutOfBounds fl s label addr size ↔
      addr < b ∨ (b + n * e) % 2 ^ 64 < (addr + size) % 2 ^ 64 ∨ (addr + size) % 2 ^ 64 < b := by
  have result : checkBounds fl s label addr size = if addr < b then some .olb
      else if (b + n * e) % 2 ^ 64 < (addr + size) % 2 ^ 64 ∨ (addr + size) % 2 ^ 64 < b then
        some .oub
      else none := by
    simp [checkBounds, on, nonnull, recorded.initialized, recorded.kind, recorded.lower,
      recorded.upper]
  rw [ReportsOutOfBounds, result]
  by_cases below : addr < b
  · rw [if_pos below]
    exact ⟨fun _ => .inl below, fun _ => ⟨.olb, rfl, rfl⟩⟩
  rw [if_neg below]
  by_cases beyond : (b + n * e) % 2 ^ 64 < (addr + size) % 2 ^ 64 ∨ (addr + size) % 2 ^ 64 < b
  · rw [if_pos beyond]
    exact ⟨fun _ => .inr beyond, fun _ => ⟨.oub, rfl, rfl⟩⟩
  rw [if_neg beyond]
  constructor
  · rintro ⟨error, reported, -⟩
    cases reported
  · rintro (wrong | wrong)
    · exact absurd wrong below
    · exact absurd wrong beyond

end Check

/-- The check is exact unless the end of the access wraps around into the allocation, or the
access has no bytes and is not at the allocation. -/
theorem reports_exact_iff (fl : Flags) (on : fl.traceBounds = true) (s : Runtime)
    (label b n e addr size : Nat) (recorded : Recorded s label b n e) (base : 0 < b)
    (fits : b + n * e < 2 ^ 64) (address : addr < 2 ^ 64) (length : size < 2 ^ 64) :
    (ReportsOutOfBounds fl s label addr size ↔ ¬ Within b n e addr size) ↔
      ¬ WrapsInside b n e addr size ∧ ¬ EmptyOutside b n e addr size := by
  rw [within_iff]
  unfold WrapsInside EmptyOutside
  by_cases null : addr = 0
  · subst null
    have reported : ReportsOutOfBounds fl s label 0 size := ⟨.null, by simp [checkBounds, on], rfl⟩
    simp only [reported, true_iff]
    omega
  · rw [reports_iff on recorded null]
    by_cases wraps : 2 ^ 64 ≤ addr + size
    · -- the wrapped end is below the address, so only the lower bound can give it away
      have wrapped : (addr + size) % 2 ^ 64 = addr + size - 2 ^ 64 := by omega
      omega
    · omega

/-- The state after an array of 100 bytes has been put on the stack. -/
def hundredBytes : Nat × Machine :=
  traceAlloca boundsFlags ⟨0, 100, 1, 8192⟩ InputLabels.fresh

lemma hundredBytes_recorded : Recorded hundredBytes.2.table hundredBytes.1 8192 100 1 :=
  traceAlloca_recorded rfl ⟨0, 100, 1, 8192⟩ (by decide) (by decide)

theorem reports_exact_iff_one_past_end :
    (ReportsOutOfBounds boundsFlags hundredBytes.2.table hundredBytes.1 8242 51 ↔
      ¬ Within 8192 100 1 8242 51) ↔
      ¬ WrapsInside 8192 100 1 8242 51 ∧ ¬ EmptyOutside 8192 100 1 8242 51 :=
  reports_exact_iff boundsFlags rfl hundredBytes.2.table hundredBytes.1 8192 100 1 8242 51
    hundredBytes_recorded (by decide) (by decide) (by decide) (by decide)

/-- A copy of 2^64 - 40 bytes from the middle of the array goes unnoticed: its end wraps
around to the eleventh byte. -/
theorem wrapped_copy_unnoticed :
    ¬ ReportsOutOfBounds boundsFlags hundredBytes.2.table hundredBytes.1 8242 (2 ^ 64 - 40) ∧
      ¬ Within 8192 100 1 8242 (2 ^ 64 - 40) := by
  constructor
  · rw [reports_iff rfl hundredBytes_recorded (by decide)]
    decide
  · intro within
    have := within (2 ^ 64) (by omega) (by omega)
    omega

end BoundsChecks
