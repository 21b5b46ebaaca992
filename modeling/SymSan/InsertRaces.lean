import SymSan.LabelTable

/-!
# Concurrent insertions

The atomic steps of `union_hashtable::insert` in any number of threads. Every call has a node
of its own: `allocator_alloc` counts up, and nothing is freed.
-/

namespace InsertRaces

open LabelTable Function

structure State (ι : Type) where
  bucket : Nat → Option ι
  /-- The head that a call read last. -/
  head : ι → Option (Option ι)
  /-- The pointer of an inserted node. -/
  next : ι → Option (Option ι)

def start {ι : Type} : State ι := ⟨fun _ => none, fun _ => none, fun _ => none⟩

variable {ι : Type} [DecidableEq ι] (keys : ι → LabelInfo)

/-- A call reads the head of its bucket and then makes compare-and-swaps; one that fails reads
the head again. -/
def step (s : State ι) (i : ι) : State ι :=
  let index := bucketOf (keys i)
  if (s.next i).isSome then s
  else if s.head i = some (s.bucket index) then
    ⟨update s.bucket index (some i), s.head, update s.next i (s.head i)⟩
  else { s with head := update s.head i (some (s.bucket index)) }

/-- The pointers lead through the nodes of the list to its end. -/
def Linked (next : ι → Option (Option ι)) (l : List ι) : Prop :=
  ∀ i rest, i :: rest <:+ l → next i = some rest.head?

/-- Every bucket is the list of the calls for it that have returned. -/
def Stored (s : State ι) : Prop :=
  ∀ b, ∃ l, s.bucket b = l.head? ∧ Linked s.next l ∧ l.Nodup ∧
    ∀ i, i ∈ l ↔ (s.next i).isSome ∧ bucketOf (keys i) = b

variable {keys} {s : State ι}

lemma step_stored (stored : Stored keys s) (i : ι) :
    Stored keys (step keys s i) ∧ ∀ l, Linked s.next l → Linked (step keys s i).next l := by
  simp only [step]
  split
  · exact ⟨stored, fun _ => id⟩
  rename_i new
  split
  next current =>
    -- the node is in no list yet
    have keeps (l) (linked : Linked s.next l) : Linked (update s.next i (s.head i)) l := by
      intro j rest inside
      have found := linked j rest inside
      refine (update_of_ne ?_ ..).trans found
      rintro rfl
      simp [found] at new
    refine ⟨fun b => ?_, keeps⟩
    obtain ⟨l, first, linked, nodup, mem⟩ := stored b
    by_cases mine : b = bucketOf (keys i)
    · subst mine
      refine ⟨i :: l, by simp, ?_, by simp [nodup, mem, new], fun j => ?_⟩
      · intro j rest inside
        rcases List.suffix_cons_iff.mp inside with same | inside
        · cases same
          simp [current, first]
        · exact keeps l linked j rest inside
      · by_cases same : j = i <;> simp [same, mem, current]
    · refine ⟨l, by simp [mine, first], keeps l linked, nodup, fun j => (mem j).trans ?_⟩
      by_cases same : j = i <;> simp [same, Ne.symm mine]
  · exact ⟨stored, fun _ => id⟩

lemma run_stored (stored : Stored keys s) (order : List ι) :
    Stored keys (order.foldl (step keys) s) ∧
      ∀ l, Linked s.next l → Linked (order.foldl (step keys) s).next l := by
  induction order generalizing s with
  | nil => exact ⟨stored, fun _ => id⟩
  | cons i rest ih =>
    obtain ⟨next, keeps⟩ := step_stored stored i
    obtain ⟨after, keeps'⟩ := ih next
    exact ⟨after, fun l old => keeps' l (keeps l old)⟩

/-- In any order of the steps, every bucket is a list of the calls for it that have returned,
each once, and later steps leave the pointers a lookup follows. -/
theorem insertions_stored (keys : ι → LabelInfo) (order later : List ι) :
    let s := order.foldl (step keys) start
    Stored keys s ∧ ∀ l, Linked s.next l → Linked (later.foldl (step keys) s).next l := by
  have empty : Stored keys start := fun b => ⟨[], rfl, by simp [Linked], .nil, by simp [start]⟩
  have stored := (run_stored empty order).1
  exact ⟨stored, (run_stored stored later).2⟩

end InsertRaces
