import SymSan.HashConsing
import SymSan.InputLabels

/-!
# Moving a block

The wrappers of `realloc` and `reallocarray` get a new block, clear its labels and copy the bytes
and labels of the old one. `realloc` copies as many bytes as both blocks have, `reallocarray`
compares the old block with one element: for a smaller old block all of it is copied, for a
larger one as many bytes as the new block has.
-/

namespace Reallocation

open LabelTable TaintUnion RuntimeOps InputLabels
open HashConsing (dfswFree)

structure Heap where
  machine : Machine
  bytes : Nat → Nat

/-- The old block with its label and usable size, the new block, which is 0 if there is none,
and what `*ret_label` holds before the call. -/
structure Request where
  ptr : Nat
  ptrLabel : Nat
  usable : Nat
  ret : Nat
  retLabel : Nat

variable (fl : Flags) (mem : Nat → Nat) (st : Heap) (q : Request)

/-- The label that `__taint_check_malloc_size` makes and reports. -/
def taintCheckMallocSize (s : Runtime) (size sizeLabel : Nat) : Option Runtime :=
  if sizeLabel ≠ 0 ∧ fl.solveUb = true then
    (taintUnion fl mem s (.icmp .bveq) 64 ⟨0, sizeLabel, 0, size⟩).map (·.2)
  else some s

/-- `internal_memcpy` between blocks that do not overlap. -/
def internalMemcpy (cells : Nat → Nat) (dst src n : Nat) : Nat → Nat :=
  fun a => if dst ≤ a ∧ a < dst + n then cells (src + (a - dst)) else cells a

/-- The number of bytes that are copied. -/
def copied (newSize total : Nat) : Nat := if q.usable < newSize then q.usable else total

/-- The wrappers from the allocation on. -/
def reallocate (checked : Option Runtime) (bytes : Nat → Nat)
    (retLabel l1 l2 newSize total : Nat) : Option (Nat × Heap) :=
  let shadow := setLabel st.machine.shadow 0 q.ret total
  checked.bind fun table =>
  (if q.ret ≠ 0 ∧ fl.traceBounds = true then
    taintUnion fl mem table .alloca 64 ⟨l1, l2, q.ret, q.ret + total⟩
  else some (retLabel, table)).map fun r =>
    let size := if q.ptr ≠ 0 ∧ q.ret ≠ 0 then copied q newSize total else 0
    (r.1, ⟨⟨dfswFree fl r.2 q.ptr q.ptrLabel, internalMemcpy shadow q.ret q.ptr size⟩,
      internalMemcpy bytes q.ret q.ptr size⟩)

def dfswRealloc (newSize newSizeLabel : Nat) : Option (Nat × Heap) :=
  reallocate fl mem st q (taintCheckMallocSize fl mem st.machine.table newSize newSizeLabel)
    st.bytes 0 0 newSizeLabel newSize newSize

def dfswLibcRealloc : Nat → Nat → Option (Nat × Heap) := dfswRealloc fl mem st q

/-- `calloc` clears the bytes of the new block. -/
def reallocarray (retLabel nmemb newSize nmembLabel newSizeLabel : Nat) : Option (Nat × Heap) :=
  let total := newSize * nmemb % 2 ^ 64
  let checked := if nmembLabel ≠ 0 ∨ newSizeLabel ≠ 0 then
      (taintUnion fl mem st.machine.table .mul 64 ⟨nmembLabel, newSizeLabel, nmemb, newSize⟩).bind
        fun r => taintCheckMallocSize fl mem r.2 total r.1
    else some st.machine.table
  reallocate fl mem st q checked (setLabel st.bytes 0 q.ret total) retLabel nmembLabel newSizeLabel
    newSize total

def dfswReallocarray : Nat → Nat → Nat → Nat → Option (Nat × Heap) := reallocarray fl mem st q 0

/-- The wrapper does not clear `*ret_label`. -/
def dfswLibcReallocarray : Nat → Nat → Nat → Nat → Option (Nat × Heap) :=
  reallocarray fl mem st q q.retLabel

/-- Only the old block has been read, it is in the new block as far as both reach, and the rest
of the new block has no labels. -/
structure Moved (st' : Heap) (newSize total : Nat) : Prop where
  reads : copied q newSize total ≤ q.usable
  kept : ∀ i < min q.usable total, st'.bytes (q.ret + i) = st.bytes (q.ptr + i) ∧
    st'.machine.shadow (q.ret + i) = st.machine.shadow (q.ptr + i)
  unlabelled : ∀ i < total, q.usable ≤ i → st'.machine.shadow (q.ret + i) = 0

variable {fl mem st q} {st' : Heap} {checked : Option Runtime} {bytes : Nat → Nat}
  {retLabel l l1 l2 newSize total : Nat}

lemma reallocate_moved (old : q.ptr ≠ 0) (new : q.ret ≠ 0)
    (apart : q.ptr + q.usable ≤ q.ret ∨ q.ret + total ≤ q.ptr)
    (same : ∀ a, a < q.ret ∨ q.ret + total ≤ a → bytes a = st.bytes a)
    (reads : copied q newSize total ≤ q.usable)
    (enough : min q.usable total ≤ copied q newSize total)
    (h : reallocate fl mem st q checked bytes retLabel l1 l2 newSize total = some (l, st')) :
    Moved st q st' newSize total := by
  obtain ⟨_, -, h⟩ := Option.bind_eq_some_iff.mp h
  obtain ⟨r, -, h⟩ := Option.map_eq_some_iff.mp h
  simp only [if_pos (And.intro old new)] at h
  cases h
  refine ⟨reads, fun i lt => ?_, fun i lt behind => ?_⟩
  · have inside : q.ret ≤ q.ret + i ∧ q.ret + i < q.ret + copied q newSize total := by omega
    simp only [internalMemcpy, if_pos inside, Nat.add_sub_cancel_left]
    exact ⟨same _ (by omega), setLabel_outside _ _ _ _ _ (by omega)⟩
  · simp only [internalMemcpy]
    rw [if_neg (by omega)]
    exact setLabel_inside _ _ _ _ _ new (by omega)

/-- `realloc` always moves the block. `reallocarray` does just if the old block is smaller than
one element or as large as the new block. -/
theorem reallocation_moves_iff (fl : Flags) (mem : Nat → Nat) (st st' : Heap) (q : Request)
    (nmemb newSize nmembLabel newSizeLabel l : Nat) (old : q.ptr ≠ 0) (new : q.ret ≠ 0) :
    ((q.ptr + q.usable ≤ q.ret ∨ q.ret + newSize ≤ q.ptr) →
      (dfswRealloc fl mem st q newSize newSizeLabel = some (l, st') ∨
        dfswLibcRealloc fl mem st q newSize newSizeLabel = some (l, st')) →
      Moved st q st' newSize newSize) ∧
    (newSize * nmemb < 2 ^ 64 →
      (q.ptr + q.usable ≤ q.ret ∨ q.ret + newSize * nmemb ≤ q.ptr) →
      (dfswReallocarray fl mem st q nmemb newSize nmembLabel newSizeLabel = some (l, st') ∨
        dfswLibcReallocarray fl mem st q nmemb newSize nmembLabel newSizeLabel = some (l, st')) →
      (Moved st q st' newSize (newSize * nmemb) ↔
        q.usable < newSize ∨ newSize * nmemb ≤ q.usable)) := by
  refine ⟨fun apart h => ?_, fun fits apart h => ⟨fun moved => ?_, fun sized => ?_⟩⟩
  · have least : copied q newSize newSize = min q.usable newSize := by
      rw [copied]
      split <;> omega
    exact reallocate_moved old new apart (fun _ _ => rfl) (by omega) (by omega) (h.elim id id)
  · have reads := moved.reads
    rw [copied] at reads
    split at reads
    next small =>
      exact .inl small
    · exact .inr reads
  · have reads : copied q newSize (newSize * nmemb) ≤ q.usable := by
      rw [copied]
      split <;> omega
    have enough : min q.usable (newSize * nmemb) ≤ copied q newSize (newSize * nmemb) := by
      rw [copied]
      split <;> omega
    simp only [dfswReallocarray, dfswLibcReallocarray, reallocarray, Nat.mod_eq_of_lt fits] at h
    rcases h with h | h
    all_goals exact reallocate_moved old new apart (setLabel_outside _ _ _ _) reads enough h

def quiet : Flags := ⟨false, false, false, false⟩

/-- A block of 24 bytes, followed by a labelled byte. -/
def labelled : Heap := ⟨⟨fresh.table, fun a => if a = 4120 then 1 else 0⟩, fun _ => 0⟩

def request : Request := ⟨4096, 0, 24, 8192, 0⟩

theorem reallocation_moves_iff_shrunk :
    ∃ st', dfswReallocarray quiet (fun _ => 0) labelled request 2 8 0 0 = some (0, st') ∧
      Moved labelled request st' 8 16 :=
  ⟨_, rfl, ((reallocation_moves_iff quiet (fun _ => 0) labelled _ request 2 8 0 0 0 (by decide)
    (by decide)).2 (by decide) (by decide) (.inl rfl)).mpr (by decide)⟩

/-- Four elements of 8 bytes: the byte behind the old block is copied with its label. -/
theorem reallocarray_reads_behind :
    ∃ st', dfswReallocarray quiet (fun _ => 0) labelled request 4 8 0 0 = some (0, st') ∧
      request.usable < copied request 8 32 ∧ st'.machine.shadow (8192 + 24) = 1 :=
  ⟨_, rfl, by decide, by decide⟩

end Reallocation
