import Mathlib.Logic.Relation
import SymSan.BranchRuns

/-!
# Nested tasks

The sets of `save_constraint` join the input bytes that occur in one saved comparison,
and every saved comparison lies in the bucket of a byte of its set. A nested task
collects the buckets of one set for every comparison of its clause, the set of the
highest byte: each call of `get_set` drops what the calls for the lower bytes have
found. So it has the constraints of all connected branches if these are connected to
the highest byte of a comparison.
-/

namespace NestedTasks

open LabelTable Denotation TypedLabels RgdAst FindRoots RootWalk RootMeaning JigsawTask
open AstSolver BranchForms TreeSizes BranchTasks BranchRuns
open DataFlowSets Relation
open List (append_nil map_eq_singleton_iff mem_append mem_append_left mem_append_right mem_cons
  mem_cons_of_mem mem_cons_self mem_map mem_singleton not_mem_nil)

/-! ## Input bytes -/

variable (p : Parser)

/-- The bytes of a label, by its records. -/
def labelInputs : Nat → Nat → Bool :=
  ScanTables.value (fun l earlier => inputsOf p earlier l) fun _ => false

def labelBytes (l : Nat) : List Nat :=
  (List.range (inputSize p)).filter (labelInputs p l)

variable (atoms : List AstNode)

def branchBytes : List Nat :=
  atoms.flatMap fun a => labelBytes p a.data.label

variable (saved : List (List AstNode))

/-- Two bytes occur in the same branch. -/
def Together (x y : Nat) : Prop :=
  ∃ branch, branch ∈ saved ∧ x ∈ branchBytes p branch ∧ y ∈ branchBytes p branch

/-- Two bytes occur in the same comparison. -/
def Linked (x y : Nat) : Prop :=
  ∃ a, a ∈ atoms ∧ x ∈ labelBytes p a.data.label ∧ y ∈ labelBytes p a.data.label

def Joined : Nat → Nat → Prop := EqvGen (Linked p atoms)

/-- Some byte of the saved branch is connected to one of the new branch. -/
def Touches (old new : List AstNode) : Prop :=
  ∃ x y, x ∈ branchBytes p old ∧ y ∈ branchBytes p new ∧ TransGen (Together p saved) x y

/-- Every comparison of a touched branch is joined with the highest byte of a comparison
of the clause, and nothing else asks for another outcome of it. -/
def Covered (new clause : List AstNode) : Prop :=
  ∀ old, old ∈ saved → Touches p saved old new → ∀ a, a ∈ old →
    (∃ var top x, var ∈ clause ∧ (labelBytes p var.data.label).getLast? = some top ∧
      x ∈ labelBytes p a.data.label ∧ Joined p saved.flatten top x) ∧
    ∀ node, node ∈ clause ++ saved.flatten → node.data.label = a.data.label → node.kind = a.kind

lemma joined_equivalence : Equivalence (Joined p atoms) :=
  EqvGen.is_equivalence _

/-! ## The bits of small labels -/

/-- The bit sets of small labels are their bytes. -/
structure Bits (s : State) : Prop where
  aligned : s.branchToInputs.length = s.caches.astSize.length
  entry : ∀ k, k < s.caches.astSize.length → Small p k → s.inputs k = labelInputs p k

section Bits

variable {p : Parser} {s s' : State} {k l : Nat} {σ : Setting}

lemma inputsOf_congr {earlier earlier' : Nat → Nat → Bool}
    (first : (p.info l).l1 ≠ 0 → earlier (p.info l).l1 = earlier' (p.info l).l1)
    (second : (p.info l).l2 ≠ 0 → (p.info l).op ≠ .load →
      earlier (p.info l).l2 = earlier' (p.info l).l2) :
    inputsOf p earlier l = inputsOf p earlier' l := by
  simp only [inputsOf]
  split
  · rfl
  split
  · rfl
  · rfl
  rename_i notInput notLoad
  by_cases zero1 : (p.info l).l1 = 0
  · by_cases zero2 : (p.info l).l2 = 0
    · simp [zero1, zero2]
    · simp [zero1, second zero2 notLoad]
  · by_cases zero2 : (p.info l).l2 = 0
    · simp [zero2, first zero1]
    · simp only [first zero1, second zero2 notLoad]

lemma inputsOf_small (small : Small p l)
    (entry : ∀ k < l, Small p k → s.inputs k = labelInputs p k) :
    inputsOf p s.inputs l = labelInputs p l := by
  obtain ⟨_, ordered, -, -⟩ := small l .self
  rw [labelInputs, ScanTables.value_eq]
  apply inputsOf_congr
  · intro symbolic
    have lt := ordered.1
    rw [if_pos lt]
    exact entry _ lt (small.first.resolve_left symbolic)
  · intro symbolic notLoad
    have lt := ordered.2 notLoad
    rw [if_pos lt]
    exact entry _ lt ((small.second notLoad).resolve_left symbolic)

lemma inputs_push {bits : Nat → Bool} {c : Caches} :
    ({ s with caches := c, branchToInputs := s.branchToInputs ++ [bits] } : State).inputs k =
      if k = s.branchToInputs.length then bits else s.inputs k := by
  simp only [State.inputs, List.getD_eq_getElem?_getD]
  split
  next here =>
    rw [here, List.getElem?_concat_length, Option.getD_some]
  · by_cases old : k < s.branchToInputs.length
    · rw [List.getElem?_append_left old]
    · rw [List.getElem?_eq_none (by simp; omega), List.getElem?_eq_none (by omega)]

lemma scanNext_bits {ok : Bool} (bits : Bits p s) (belongs : Belongs p s.caches)
    (inside : ∀ j, s.caches.astSize.length ≤ j → j < s.caches.astSize.length + k → j ≠ 0 →
      insideInputs p j = true) (h : scanNext p k s = (ok, s')) : Bits p s' := by
  induction k generalizing s with
  | zero =>
    cases h
    exact bits
  | succ k ih =>
    simp only [scanNext] at h
    split at h
    next c first =>
      obtain ⟨inStep, grown⟩ := scanLabel_inStep belongs.inStep first
      have sized := scanLabel_sized belongs.sized first
      have next : Bits p { s with
          caches := c
          branchToInputs :=
            s.branchToInputs ++ [inputsOf p s.inputs s.caches.astSize.length] } := by
        constructor
        · simp [bits.aligned, grown]
        intro j lt small
        rw [inputs_push, bits.aligned]
        dsimp only at lt
        split
        next new =>
          subst new
          exact inputsOf_small small fun x below => bits.entry x below
        · exact bits.entry j (by omega) small
      have positions : ∀ j, c.astSize.length ≤ j → j < c.astSize.length + k → j ≠ 0 →
          insideInputs p j = true :=
        fun j low high => inside j (by omega) (by omega)
      exact ih next ⟨inStep, sized⟩ positions h
    next c first =>
      cases h
      have same := scanLabel_refused (inside _ (Nat.le_refl _) (by omega)) first
      subst same
      exact bits

lemma scanNext_buckets (p : Parser) (k : Nat) (s : State) :
    (scanNext p k s).2.dataFlow = s.dataFlow ∧ (scanNext p k s).2.buckets = s.buckets := by
  induction k generalizing s with
  | zero => exact ⟨rfl, rfl⟩
  | succ k ih =>
    simp only [scanNext]
    split
    · exact ih _
    · exact ⟨rfl, rfl⟩

lemma getRootExpr_buckets (p : Parser) (s : State) (l : Nat) :
    (getRootExpr p s l).2.dataFlow = s.dataFlow ∧ (getRootExpr p s l).2.buckets = s.buckets := by
  have scanned := scanNext_buckets p (l + 1 - s.caches.astSize.length) s
  generalize found : getRootExpr p s l = out
  obtain ⟨_, _⟩ := out
  cases getRootExpr_fetched found with
  | refused | cached => exact ⟨rfl, rfl⟩
  | unscanned scan | built _ _ scan | failed scan =>
    rw [scan] at scanned
    exact scanned

lemma getRootExpr_bits {root : Option AstNode} (bits : Bits σ.parser s)
    (zero : (σ.parser.info 0).op = .input) (belongs : Belongs σ.parser s.caches)
    (inside : Inside σ.parser l) (h : getRootExpr σ.parser s l = (root, s')) :
    Belongs σ.parser s'.caches ∧ Bits σ.parser s' ∧
      s.caches.astSize.length ≤ s'.caches.astSize.length := by
  have positions := inside.upTo s.caches.astSize.length
  -- the traversal keeps the number of scanned labels
  have resized : ∀ ok s1, scanNext σ.parser (l + 1 - s.caches.astSize.length) s = (ok, s1) →
      ∀ c : Caches, Belongs σ.parser c ∧ c.astSize.length = s1.caches.astSize.length → ∀ roots,
        Belongs σ.parser c ∧ Bits σ.parser { s1 with caches := c, rootExprs := roots } ∧
          s.caches.astSize.length ≤ c.astSize.length := by
    intro ok s1 scan c same roots
    have after := scanNext_bits bits belongs positions scan
    have grows := (scanNext_scans belongs positions scan).1.grows
    exact ⟨same.1, ⟨after.aligned.trans same.2.symm, fun k lt small =>
      after.entry k (by dsimp only at lt; omega) small⟩, by omega⟩
  cases getRootExpr_fetched h with
  | refused | cached => exact ⟨belongs, bits, Nat.le_refl _⟩
  | unscanned scan =>
    have after := (scanNext_scans belongs positions scan).1.belongs
    exact resized false s' scan s'.caches ⟨after, rfl⟩ s'.rootExprs
  | @built s1 t c valid fresh scan made =>
    have after := (scanNext_scans belongs positions scan).1.belongs
    exact resized true s1 scan c
      (walk_survives (belongs_survives zero s1.caches.astSize.length) ⟨after, rfl⟩ made) _
  | @failed s1 scan =>
    have after := (scanNext_scans belongs positions scan).1.belongs
    exact resized true s1 scan _
      (leftBehind_survives (belongs_survives zero s1.caches.astSize.length) (rounds σ.parser)
        ⟨l, 0, [], [], 1, s1.caches⟩ ⟨after, rfl⟩) _

lemma useInputs_bits (bits : Bits σ.parser s) (belongs : Belongs σ.parser s.caches) (l : Nat) :
    Bits σ.parser (useInputs σ s l) := by
  have set : ∀ value, s.caches.concretize l ≠ 0 →
      Bits σ.parser { s with branchToInputs := s.branchToInputs.set l value } := by
    intro value marked
    constructor
    · rw [← bits.aligned]
      exact List.length_set
    intro k lt small
    have other : l ≠ k := by
      rintro rfl
      exact marked (belongs.sized.unmarked l (.inr small))
    rw [← bits.entry k lt small]
    simp [State.inputs, List.getElem?_set_ne other]
  simp only [useInputs]
  split
  · exact set _ (by omega)
  · split
    · exact set _ (by omega)
    · exact bits

lemma useInputs_frame (σ : Setting) (s : State) (l : Nat) :
    (useInputs σ s l).dataFlow = s.dataFlow ∧ (useInputs σ s l).buckets = s.buckets := by
  simp only [useInputs]
  split
  · exact ⟨rfl, rfl⟩
  · split
    · exact ⟨rfl, rfl⟩
    · exact ⟨rfl, rfl⟩

lemma bytesOf_small (bits : Bits σ.parser s) (covered : l < s.caches.astSize.length)
    (small : Small σ.parser l) : bytesOf σ s l = labelBytes σ.parser l := by
  rw [bytesOf, bits.entry l covered small, labelBytes]

end Bits

/-! ## Sets and buckets -/

/-- The sets and buckets hold the saved comparisons. -/
structure Tracks (σ : Setting) (s : State) (saved : List AstNode) : Prop where
  bits : Bits σ.parser s
  atoms : ∀ a, a ∈ saved → (∃ id, Drawable σ.parser id a.data.label) ∧
    a.data.label < s.caches.astSize.length
  size : s.dataFlow.size = inputSize σ.parser
  sets : Sound s.dataFlow (Joined σ.parser saved)
  buckets : ∀ a, a ∈ saved → ∀ x, x ∈ labelBytes σ.parser a.data.label →
    ∃ b, b < inputSize σ.parser ∧ a ∈ s.buckets b ∧ Joined σ.parser saved b x
  known : ∀ b a, a ∈ s.buckets b → a ∈ saved

section Tracks

variable {σ : Setting} {s s' : State} {saved : List AstNode} {a : AstNode} {p : Parser}
  {rest : List Nat} {x y : Nat}

lemma mem_labelBytes_lt {l x : Nat} (inside : x ∈ labelBytes p l) : x < inputSize p :=
  List.mem_range.mp (List.mem_filter.mp inside).1

lemma Tracks.frame (tracks : Tracks σ s saved) (bits : Bits σ.parser s')
    (grows : s.caches.astSize.length ≤ s'.caches.astSize.length)
    (dataFlow : s'.dataFlow = s.dataFlow) (buckets : s'.buckets = s.buckets) :
    Tracks σ s' saved := by
  refine ⟨bits, fun a inside => ?_, ?_, ?_, ?_, ?_⟩
  · obtain ⟨drawable, _⟩ := tracks.atoms a inside
    exact ⟨drawable, by omega⟩
  · rw [dataFlow]
    exact tracks.size
  · rw [dataFlow]
    exact tracks.sets
  · rw [buckets]
    exact tracks.buckets
  · rw [buckets]
    exact tracks.known

lemma useInputs_tracks (tracks : Tracks σ s saved) (consistent : Consistent σ s) (l : Nat) :
    Tracks σ (useInputs σ s l) saved := by
  obtain ⟨dataFlow, buckets⟩ := useInputs_frame σ s l
  refine tracks.frame (useInputs_bits tracks.bits consistent.belongs l) ?_ dataFlow buckets
  rw [(useInputs_follows σ s l).caches]

lemma getRootExpr_tracks {l : Nat} {root : Option AstNode} (tracks : Tracks σ s saved)
    (zero : (σ.parser.info 0).op = .input) (consistent : Consistent σ s)
    (inside : Inside σ.parser l) (found : getRootExpr σ.parser s l = (root, s')) :
    Tracks σ s' saved := by
  obtain ⟨-, bits, grows⟩ := getRootExpr_bits tracks.bits zero consistent.belongs inside found
  obtain ⟨dataFlow, buckets⟩ := getRootExpr_buckets σ.parser s l
  rw [found] at dataFlow buckets
  exact tracks.frame bits grows dataFlow buckets

lemma mergeAll_sound {uf : UnionFind} {same : Nat → Nat → Prop} {root : Nat}
    (sound : Sound uf same) (inside : root < uf.size) (all : ∀ x ∈ rest, x < uf.size) :
    ∃ r uf', mergeAll uf root rest = some (r, uf') ∧ uf'.size = uf.size ∧ r < uf.size ∧
      Sound uf' (EqvGen fun u v => same u v ∨ (u = root ∧ v ∈ rest)) ∧
      EqvGen (fun u v => same u v ∨ (u = root ∧ v ∈ rest)) root r := by
  induction rest generalizing uf same root with
  | nil =>
    have trivial : (EqvGen fun u v => same u v ∨ (u = root ∧ v ∈ [])) = same := by
      funext u v
      simp only [not_mem_nil, and_false, or_false]
      exact propext sound.equivalence.eqvGen_iff
    rw [trivial]
    exact ⟨root, uf, rfl, rfl, inside, sound, sound.equivalence.refl root⟩
  | cons y rest ih =>
    obtain ⟨r1, uf1, merged, size1, _, sound1, reached1, -⟩ :=
      sound.merge inside (all y mem_cons_self)
    have insideR : r1 < uf1.size := by omega
    obtain ⟨r, uf', rest', size', _, sound', reached'⟩ := ih sound1 insideR (by
      intro x mem
      rw [size1]
      exact all x (mem_cons_of_mem y mem))
    have gen := EqvGen.is_equivalence fun u v => same u v ∨ (u = root ∧ v ∈ y :: rest)
    have base : ∀ u v, same u v → EqvGen (fun u v => same u v ∨ (u = root ∧ v ∈ y :: rest)) u v :=
      fun u v h => .rel _ _ (.inl h)
    have arm : ∀ z, z ∈ y :: rest →
        EqvGen (fun u v => same u v ∨ (u = root ∧ v ∈ y :: rest)) root z :=
      fun z h => .rel _ _ (.inr ⟨rfl, h⟩)
    have gen' := EqvGen.is_equivalence fun u v => link same root y u v ∨ (u = r1 ∧ v ∈ rest)
    have linked := link_le gen base (arm y mem_cons_self)
    have equal : (EqvGen fun u v => link same root y u v ∨ (u = r1 ∧ v ∈ rest)) =
        EqvGen fun u v => same u v ∨ (u = root ∧ v ∈ y :: rest) := by
      funext u v
      apply propext
      constructor
      · refine eqvGen_le gen ?_
        rintro u v (here | ⟨rfl, mem⟩)
        · exact linked u v here
        · exact gen.trans (gen.symm (linked _ _ reached1)) (arm v (mem_cons_of_mem y mem))
      refine eqvGen_le gen' ?_
      rintro u v (here | ⟨rfl, mem⟩)
      · exact .rel _ _ (.inl (.inl here))
      · rcases mem_cons.mp mem with rfl | mem
        · exact .rel _ _ (.inl (.inr (.inl ⟨sound.equivalence.refl _, sound.equivalence.refl _⟩)))
        · exact gen'.trans (.rel _ _ (.inl reached1)) (.rel _ _ (.inr ⟨rfl, mem⟩))
    rw [equal] at sound' reached'
    refine ⟨r, uf', ?_, size'.trans size1, by omega, sound', ?_⟩
    · rw [mergeAll, merged]
      exact rest'
    · exact gen.trans (linked _ _ reached1) reached'

lemma linked_append :
    Linked p (saved ++ [a]) x y ↔ Linked p saved x y ∨
      (x ∈ labelBytes p a.data.label ∧ y ∈ labelBytes p a.data.label) := by
  simp [Linked]

lemma joined_mono (h : Joined p saved x y) : Joined p (saved ++ [a]) x y :=
  h.mono fun _ _ here => linked_append.mpr (.inl here)

lemma joined_append {first : Nat} (bytes : labelBytes p a.data.label = first :: rest) :
    (EqvGen fun u v => Joined p saved u v ∨ (u = first ∧ v ∈ rest)) = Joined p (saved ++ [a]) := by
  have gen := EqvGen.is_equivalence fun u v => Joined p saved u v ∨ (u = first ∧ v ∈ rest)
  have star : ∀ z ∈ labelBytes p a.data.label,
      EqvGen (fun u v => Joined p saved u v ∨ (u = first ∧ v ∈ rest)) first z := by
    intro z inside
    rw [bytes] at inside
    rcases mem_cons.mp inside with rfl | inside
    · exact gen.refl _
    · exact .rel _ _ (.inr ⟨rfl, inside⟩)
  funext u v
  apply propext
  constructor
  · refine eqvGen_le (joined_equivalence p _) ?_
    rintro u v (here | ⟨rfl, inside⟩)
    · exact joined_mono here
    · refine .rel _ _ (linked_append.mpr (.inr ?_))
      rw [bytes]
      exact ⟨mem_cons_self, mem_cons_of_mem _ inside⟩
  · refine eqvGen_le gen fun u v here => ?_
    rcases linked_append.mp here with old | ⟨left, right⟩
    · exact .rel _ _ (.inl (.rel _ _ old))
    · exact gen.trans (gen.symm (star u left)) (star v right)

lemma saveVar_tracks (tracks : Tracks σ s saved) (consistent : Consistent σ s)
    (drawable : ∃ id, Drawable σ.parser id a.data.label)
    (covered : a.data.label < s.caches.astSize.length) :
    ∃ s', saveVar σ s a = (true, s') ∧ Tracks σ s' (saved ++ [a]) := by
  have used := useInputs_tracks tracks consistent a.data.label
  have caches := (useInputs_follows σ s a.data.label).caches
  have small : Small σ.parser a.data.label := by
    obtain ⟨id, drawable⟩ := drawable
    exact drawable.small .self
  have bytes : bytesOf σ (useInputs σ s a.data.label) a.data.label =
      labelBytes σ.parser a.data.label := by
    apply bytesOf_small used.bits
    · rw [caches]
      exact covered
    · exact small
  have atoms : ∀ b ∈ saved ++ [a], (∃ id, Drawable σ.parser id b.data.label) ∧
      b.data.label < (useInputs σ s a.data.label).caches.astSize.length := by
    refine List.forall_mem_append.mpr ⟨used.atoms, List.forall_mem_singleton.mpr ⟨drawable, ?_⟩⟩
    rw [caches]
    exact covered
  simp only [saveVar, bytes]
  cases list : labelBytes σ.parser a.data.label with
  | nil =>
    have same : Joined σ.parser (saved ++ [a]) = Joined σ.parser saved := by
      have links : Linked σ.parser (saved ++ [a]) = Linked σ.parser saved := by
        funext x y
        rw [linked_append, list]
        simp
      rw [Joined, links, ← Joined]
    refine ⟨_, rfl, used.bits, atoms, used.size, ?_, ?_, ?_⟩
    · rw [same]
      exact used.sets
    · intro b inside x inBytes
      rw [same]
      rcases mem_append.mp inside with old | new
      · exact used.buckets b old x inBytes
      · rw [mem_singleton.mp new, list] at inBytes
        cases inBytes
    · intro b c inside
      exact mem_append_left _ (used.known b c inside)
  | cons first rest =>
    have below : ∀ x, x ∈ first :: rest → x < (useInputs σ s a.data.label).dataFlow.size := by
      intro x inside
      rw [used.size]
      rw [← list] at inside
      exact mem_labelBytes_lt inside
    obtain ⟨r, _, merged, size, inside, sound, reached⟩ := mergeAll_sound used.sets
      (below first mem_cons_self) fun x mem => below x (mem_cons_of_mem first mem)
    rw [joined_append list] at sound reached
    simp only [merged]
    refine ⟨_, rfl, ⟨used.bits.aligned, used.bits.entry⟩, atoms, size.trans used.size, sound,
      ?_, ?_⟩
    · intro b inSaved x inBytes
      dsimp only
      rcases mem_append.mp inSaved with old | new
      · obtain ⟨bucket, lt, mem, joined⟩ := used.buckets b old x inBytes
        refine ⟨bucket, lt, ?_, joined_mono joined⟩
        by_cases here : bucket = r
        · rw [here, Function.update_self, ← here]
          exact mem_append_left _ mem
        · rw [Function.update_of_ne here]
          exact mem
      · rw [mem_singleton.mp new] at inBytes ⊢
        refine ⟨r, by rw [← used.size]; exact inside, ?_, ?_⟩
        · rw [Function.update_self]
          exact mem_append_right _ (mem_singleton.mpr rfl)
        · have gen := joined_equivalence σ.parser (saved ++ [a])
          refine gen.trans (gen.symm reached) (.rel _ _ (linked_append.mpr (.inr ⟨?_, inBytes⟩)))
          rw [list]
          exact mem_cons_self
    · intro b c mem
      dsimp only at mem
      by_cases here : b = r
      · rw [here, Function.update_self] at mem
        rcases mem_append.mp mem with old | new
        · exact mem_append_left _ (used.known r c old)
        · exact mem_append_right _ new
      · rw [Function.update_of_ne here] at mem
        exact mem_append_left _ (used.known b c mem)

lemma saveVars_tracks {vars : List AstNode} (tracks : Tracks σ s saved)
    (consistent : Consistent σ s) (atoms : ∀ a ∈ vars,
      (∃ id, Drawable σ.parser id a.data.label) ∧ a.data.label < s.caches.astSize.length) :
    Tracks σ (saveVars σ s vars) (saved ++ vars) := by
  induction vars generalizing s saved with
  | nil =>
    rw [append_nil]
    exact tracks
  | cons a vars ih =>
    obtain ⟨drawable, covered⟩ := atoms a mem_cons_self
    obtain ⟨_, stored, next⟩ := saveVar_tracks tracks consistent drawable covered
    have follows := saveVar_follows σ s a
    rw [stored] at follows
    simp only [saveVars, stored]
    rw [List.append_cons]
    refine ih next (follows.consistent consistent) fun b inside => ?_
    rw [follows.caches]
    exact atoms b (mem_cons_of_mem a inside)

end Tracks

/-! ## Collecting -/

/-- The nodes of a clause under construction come from `pool`, and every label that is
marked as inserted has one. -/
structure Gathers (pool : List AstNode) (n : Nested) : Prop where
  inserted : ∀ l, l ∈ n.inserted → ∃ node, node ∈ n.clause ∧ node.data.label = l
  clause : ∀ node, node ∈ n.clause → node ∈ pool

section Collect

variable {σ : Setting} {s : State} {saved pool : List AstNode} {n : Nested}

lemma add_gathers {nc : AstNode} (gathers : Gathers pool n) (inPool : nc ∈ pool) :
    Gathers pool (n.add nc) ∧ (∀ node ∈ n.clause, node ∈ (n.add nc).clause) ∧
      ∃ node ∈ (n.add nc).clause, node.data.label = nc.data.label := by
  simp only [Nested.add]
  split
  next known =>
    exact ⟨gathers, fun _ h => h, gathers.inserted _ known⟩
  refine ⟨⟨fun l mem => ?_, fun node mem => ?_⟩, fun node mem => mem_append_left _ mem,
    nc, mem_append_right _ (mem_singleton.mpr rfl), rfl⟩
  · rcases mem_cons.mp mem with rfl | old
    · exact ⟨nc, mem_append_right _ (mem_singleton.mpr rfl), rfl⟩
    · obtain ⟨node, inClause, label⟩ := gathers.inserted l old
      exact ⟨node, mem_append_left _ inClause, label⟩
  · rcases mem_append.mp mem with old | new
    · exact gathers.clause node old
    · rw [mem_singleton.mp new]
      exact inPool

lemma addAll_gathers {list : List AstNode} (gathers : Gathers pool n)
    (inPool : ∀ nc ∈ list, nc ∈ pool) :
    Gathers pool (list.foldl .add n) ∧
      (∀ node ∈ n.clause, node ∈ (list.foldl .add n).clause) ∧
      ∀ nc ∈ list, ∃ node ∈ (list.foldl .add n).clause, node.data.label = nc.data.label := by
  induction list generalizing n with
  | nil => exact ⟨gathers, fun _ h => h, by simp⟩
  | cons nc list ih =>
    obtain ⟨next, keeps, found⟩ := add_gathers gathers (inPool nc mem_cons_self)
    obtain ⟨after, keeps', found'⟩ := ih next fun x mem => inPool x (mem_cons_of_mem nc mem)
    refine ⟨after, fun node mem => keeps' node (keeps node mem), fun x mem => ?_⟩
    rcases mem_cons.mp mem with rfl | later
    · obtain ⟨node, inClause, label⟩ := found
      exact ⟨node, keeps' node inClause, label⟩
    · exact found' x later

/-- Only the set of the last byte is left. -/
lemma mem_relatedInputs {uf : UnionFind} {same : Nat → Nat → Prop} {bytes : List Nat}
    {top b : Nat} (sound : Sound uf same) (last : bytes.getLast? = some top)
    (inside : top < uf.size) : b ∈ relatedInputs uf bytes ↔ b < uf.size ∧ same top b := by
  obtain ⟨_, rfl⟩ := List.getLast?_eq_some_iff.mp last
  obtain ⟨l, found, -, members⟩ := sound.getSet inside
  rw [relatedInputs, List.foldl_append, List.foldl_cons, List.foldl_nil, found]
  exact members b

lemma collectVar_gathers (var : AstNode) (tracks : Tracks σ s saved) (consistent : Consistent σ s)
    (gathers : Gathers pool n) (inPool : ∀ a ∈ saved, a ∈ pool) :
    Gathers pool (collectVar σ s n var).1 ∧
      (∀ node ∈ n.clause, node ∈ (collectVar σ s n var).1.clause) ∧
      ((∃ id, Drawable σ.parser id var.data.label) →
        var.data.label < s.caches.astSize.length → ∀ top,
        (labelBytes σ.parser var.data.label).getLast? = some top → ∀ a x, a ∈ saved →
        x ∈ labelBytes σ.parser a.data.label → Joined σ.parser saved top x →
        ∃ node ∈ (collectVar σ s n var).1.clause, node.data.label = a.data.label) := by
  have used := useInputs_tracks tracks consistent var.data.label
  have bytes := fun id (drawable : Drawable σ.parser id var.data.label) covered =>
    bytesOf_small used.bits (by rw [(useInputs_follows σ s _).caches]; exact covered)
      (drawable.small .self)
  simp only [collectVar]
  split
  next empty =>
    refine ⟨gathers, fun _ h => h, ?_⟩
    rintro ⟨id, drawable⟩ covered top last
    rw [← bytes id drawable covered, empty] at last
    cases last
  · have inBuckets : ∀ nc ∈ (σ.walkSet (relatedInputs (useInputs σ s var.data.label).dataFlow
        (bytesOf σ (useInputs σ s var.data.label) var.data.label))).flatMap
          (useInputs σ s var.data.label).buckets, nc ∈ pool := by
      intro nc mem
      obtain ⟨b, -, inBucket⟩ := List.mem_flatMap.mp mem
      exact inPool nc (used.known b nc inBucket)
    obtain ⟨after, keeps, found⟩ := addAll_gathers gathers inBuckets
    refine ⟨after, keeps, ?_⟩
    rintro ⟨id, drawable⟩ covered top last a x inSaved inBytes joined
    obtain ⟨b, lt, inBucket, toX⟩ := used.buckets a inSaved x inBytes
    have gen := joined_equivalence σ.parser saved
    have topInside : top < (useInputs σ s var.data.label).dataFlow.size := by
      rw [used.size]
      exact mem_labelBytes_lt (List.mem_of_getLast? last)
    apply found a
    refine List.mem_flatMap.mpr ⟨b, (σ.walks _).mem_iff.mpr ?_, inBucket⟩
    rw [bytes id drawable covered]
    refine (mem_relatedInputs used.sets last topInside).mpr ⟨?_, ?_⟩
    · rw [used.size]
      exact lt
    · exact gen.trans joined (gen.symm toX)

lemma collectVar_snd (σ : Setting) (s : State) (n : Nested) (var : AstNode) :
    (collectVar σ s n var).2 = useInputs σ s var.data.label := by
  simp only [collectVar]
  split <;> rfl

lemma collectVars_gathers (clause : List AstNode) (tracks : Tracks σ s saved)
    (consistent : Consistent σ s) (gathers : Gathers pool n) (inPool : ∀ a ∈ saved, a ∈ pool) :
    Gathers pool (collectVars σ s n clause).1 ∧ Tracks σ (collectVars σ s n clause).2 saved ∧
      (∀ node ∈ n.clause, node ∈ (collectVars σ s n clause).1.clause) ∧
      ∀ var ∈ clause, (∃ id, Drawable σ.parser id var.data.label) →
        var.data.label < s.caches.astSize.length → ∀ top,
        (labelBytes σ.parser var.data.label).getLast? = some top → ∀ a x, a ∈ saved →
        x ∈ labelBytes σ.parser a.data.label → Joined σ.parser saved top x →
        ∃ node ∈ (collectVars σ s n clause).1.clause, node.data.label = a.data.label := by
  induction clause generalizing s n with
  | nil => exact ⟨gathers, tracks, fun _ h => h, by simp⟩
  | cons var clause ih =>
    obtain ⟨next, keeps, found⟩ := collectVar_gathers var tracks consistent gathers inPool
    have used := useInputs_tracks tracks consistent var.data.label
    have follows := useInputs_follows σ s var.data.label
    have second := collectVar_snd σ s n var
    obtain ⟨after, tracked, keeps', found'⟩ := ih used (follows.consistent consistent) next
    simp only [collectVars, second]
    refine ⟨after, tracked, fun node mem => keeps' node (keeps node mem), ?_⟩
    intro v mem drawable covered top last a x inSaved inBytes joined
    rcases mem_cons.mp mem with rfl | later
    · obtain ⟨node, inClause, label⟩ := found drawable covered top last a x inSaved inBytes joined
      exact ⟨node, keeps' node inClause, label⟩
    · refine found' v later drawable ?_ top last a x inSaved inBytes joined
      rw [follows.caches]
      exact covered

end Collect

/-! ## Branches -/

section Branches

variable {σ : Setting} {s s' : State} {saved : List AstNode} {base : List (Constraint × AstKind)}
  {dnf : List (List AstNode)} {task : Task}

lemma atomConstraint_frame (σ : Setting) (s : State) (l : Nat) :
    (atomConstraint σ s l).2.branchToInputs = s.branchToInputs ∧
      (atomConstraint σ s l).2.dataFlow = s.dataFlow ∧
      (atomConstraint σ s l).2.buckets = s.buckets := by
  simp only [atomConstraint]
  split
  · exact ⟨rfl, rfl, rfl⟩
  · split
    · exact ⟨rfl, rfl, rfl⟩
    · exact ⟨rfl, rfl, rfl⟩

lemma constructTask_frame (σ : Setting) (s : State) (clause : List AstNode) :
    (constructTask σ s clause).2.branchToInputs = s.branchToInputs ∧
      (constructTask σ s clause).2.dataFlow = s.dataFlow ∧
      (constructTask σ s clause).2.buckets = s.buckets := by
  induction clause generalizing s with
  | nil => exact ⟨rfl, rfl, rfl⟩
  | cons node clause ih =>
    obtain ⟨bits, dataFlow, buckets⟩ := atomConstraint_frame σ s node.data.label
    simp only [constructTask]
    split
    all_goals
      rename_i s1 made
      obtain ⟨bits', dataFlow', buckets'⟩ := ih s1
      rw [made] at bits dataFlow buckets
      exact ⟨bits'.trans bits, dataFlow'.trans dataFlow, buckets'.trans buckets⟩

lemma constructTask_tracks (tracks : Tracks σ s saved) (clause : List AstNode) :
    Tracks σ (constructTask σ s clause).2 saved := by
  obtain ⟨bits, dataFlow, buckets⟩ := constructTask_frame σ s clause
  have caches := ((follows_steps σ).construct s clause).caches
  refine tracks.frame ⟨?_, ?_⟩ ?_ dataFlow buckets
  · rw [bits, caches]
    exact tracks.bits.aligned
  · rw [caches]
    intro k lt small
    rw [State.inputs, bits]
    exact tracks.bits.entry k lt small
  · rw [caches]

/-- The constraint of an atom that can be parsed is in the task, whatever the others do. -/
lemma constructTask_mem {clause : List AstNode} {a : AstNode} (consistent : Consistent σ s)
    (inside : a ∈ clause) (drawable : ∃ id, Drawable σ.parser id a.data.label)
    (covered : a.data.label < s.caches.astSize.length) :
    ∃ made ∈ (constructTask σ s clause).1, ConstraintFor σ.parser.info made a := by
  induction clause generalizing s with
  | nil => cases inside
  | cons node clause ih =>
    have follows := atomConstraint_follows σ s node.data.label
    have later : ∀ s1 first, atomConstraint σ s node.data.label = (first, s1) → a ∈ clause →
        ∃ made ∈ (constructTask σ s1 clause).1, ConstraintFor σ.parser.info made a := by
      intro s1 first made mem
      rw [made] at follows
      refine ih (follows.consistent consistent) mem ?_
      rw [follows.caches]
      exact covered
    rcases mem_cons.mp inside with rfl | mem
    · obtain ⟨_, drawable⟩ := drawable
      obtain ⟨c, made, drawn⟩ := atomConstraint_drawn consistent drawable covered
      generalize next : atomConstraint σ s a.data.label = out at made
      obtain ⟨_, s1⟩ := out
      cases made
      simp only [constructTask, next]
      exact ⟨(c, a.kind), mem_cons_self, rfl, drawn⟩
    · simp only [constructTask]
      split
      next c s1 made =>
        obtain ⟨found, inTask, isFor⟩ := later s1 _ made mem
        exact ⟨found, mem_cons_of_mem _ inTask, isFor⟩
      next s1 made =>
        exact later s1 _ made mem

lemma parseClause_tracks (tracks : Tracks σ s saved) (consistent : Consistent σ s)
    (clause : List AstNode) : Tracks σ (parseClause σ s clause).2 saved := by
  have first := constructTask_tracks tracks clause
  have next := ((follows_steps σ).construct s clause).consistent consistent
  have start : Gathers (clause ++ saved) ⟨clause, clause.map (·.data.label), false⟩ :=
    ⟨fun l mem => mem_map.mp mem, fun node mem => mem_append_left _ mem⟩
  obtain ⟨-, second, -⟩ := collectVars_gathers clause first next start
    fun a mem => mem_append_right _ mem
  simp only [parseClause]
  repeat' split
  · exact first
  · exact constructTask_tracks second _
  · exact constructTask_tracks second _
  · exact second
  · exact first

lemma parseClauses_tracks (tracks : Tracks σ s saved) (consistent : Consistent σ s)
    (dnf : List (List AstNode)) : Tracks σ (parseClauses σ s dnf).2 saved := by
  induction dnf generalizing s with
  | nil => exact tracks
  | cons clause dnf ih =>
    exact ih (parseClause_tracks tracks consistent clause)
      (((follows_steps σ).parseClause s clause).consistent consistent)

/-- A nested task adds what is collected for its clause, in a state of which everything
holds that the tasks before it keep. -/
lemma parseClauses_collected {I : State → Prop}
    (construct : ∀ s clause, I s → I (constructTask σ s clause).2)
    (parse : ∀ s clause, I s → I (parseClause σ s clause).2) (before : I s)
    (stored : task ∈ (parseClauses σ s dnf).1) (nested : task.base = some base) :
    ∃ clause ∈ dnf, ∃ s1, I s1 ∧ ∃ n s2,
      collectVars σ s1 ⟨clause, clause.map (·.data.label), false⟩ clause = (n, s2) ∧
      task.constraints = (constructTask σ s2 n.clause).1 := by
  induction dnf generalizing s with
  | nil => cases stored
  | cons clause dnf ih =>
    simp only [parseClauses] at stored
    rcases mem_append.mp stored with here | later
    · refine ⟨clause, mem_cons_self, _, construct s clause before, _, _, rfl, ?_⟩
      simp only [parseClause] at here
      repeat' split at here
      all_goals simp only [mem_cons, not_mem_nil, or_false] at here
      · rw [here] at nested
        cases nested
      · rcases here with rfl | rfl
        · cases nested
        · rfl
      all_goals
        rw [here] at nested
        cases nested
    · obtain ⟨clause', inside, rest⟩ := ih (parse s clause before) later
      exact ⟨clause', mem_cons_of_mem clause inside, rest⟩

lemma parseClauses_nested (tracks : Tracks σ s saved) (consistent : Consistent σ s)
    (stored : task ∈ (parseClauses σ s dnf).1) (nested : task.base = some base) :
    ∃ clause ∈ dnf, ∃ s1, (Follows σ s s1 ∧ Tracks σ s1 saved) ∧ ∃ n s2,
      collectVars σ s1 ⟨clause, clause.map (·.data.label), false⟩ clause = (n, s2) ∧
      task.constraints = (constructTask σ s2 n.clause).1 := by
  refine parseClauses_collected ?_ ?_ ⟨.refl s, tracks⟩ stored nested
  · rintro s1 clause ⟨follows, here⟩
    exact ⟨follows.trans ((follows_steps σ).construct s1 clause), constructTask_tracks here clause⟩
  · rintro s1 clause ⟨follows, here⟩
    exact ⟨follows.trans ((follows_steps σ).parseClause s1 clause),
      parseClause_tracks here (follows.consistent consistent) clause⟩

end Branches

/-! ## Runs -/

/-- The comparisons that `parse_cond` saves for a branch. -/
def savedAtoms (σ : Setting) (s : State) (l : Nat) (result : Bool) : List AstNode :=
  match (getRootExpr σ.parser s l).1 with
  | none => []
  | some root =>
    if root.kind = .bool ∨ toNnf (!result) root = none then []
    else match toNnf result root with
    | none => []
    | some t => (toDnf t []).flatten

/-- The states of a run that only saves branches which are translated as a whole, with
the comparisons of each of them. -/
inductive NestedRun (σ : Setting) : State → List (List AstNode) → Prop where
  | restart : NestedRun σ (restart σ.parser) []
  | memcmp {s : State} {saved : List (List AstNode)} (before : NestedRun σ s saved)
      (label : Nat) (content : Nat → BitVec 8) :
      NestedRun σ (recordMemcmp s label content) saved
  | cond {s : State} {saved : List (List AstNode)} (before : NestedRun σ s saved) (l : Nat)
      (result addNested : Bool) (inside : Inside σ.parser l)
      (ready : addNested = true → ∃ id, Ready σ.parser id l) :
      NestedRun σ (parseCond σ s l result addNested).2.2
        (if addNested then saved ++ [savedAtoms σ s l result] else saved)

section Runs

variable {σ : Setting} {s s' : State} {saved : List (List AstNode)}

lemma NestedRun.reached (run : NestedRun σ s saved) : Reached σ s := by
  induction run with
  | restart => exact .restart
  | memcmp before label content ih => exact .memcmp ih label content
  | cond before l result addNested inside ready ih => exact .cond ih l result addNested inside

lemma restart_tracks (σ : Setting) : Tracks σ (restart σ.parser) [] := by
  have alone : Joined σ.parser [] = Eq := by
    funext x y
    apply propext
    constructor
    · refine eqvGen_le eq_equivalence ?_
      rintro u v ⟨a, inside, -⟩
      cases inside
    · rintro rfl
      exact .refl x
  refine ⟨⟨rfl, nofun⟩, nofun, rfl, ?_, nofun, nofun⟩
  rw [alone]
  exact reset_sound _

section

variable (nested : σ.solveNested = true) (zero : (σ.parser.info 0).op = .input)

include nested zero

/-- One branch: what it saves is added to the sets and buckets. -/
lemma parseCond_tracks {atoms : List AstNode} (tracks : Tracks σ s atoms)
    (consistent : Consistent σ s) (l : Nat) (result addNested : Bool) (inside : Inside σ.parser l)
    (ready : addNested = true → ∃ id, Ready σ.parser id l) :
    Tracks σ (parseCond σ s l result addNested).2.2
      (if addNested then atoms ++ savedAtoms σ s l result else atoms) := by
  generalize found : getRootExpr σ.parser s l = out
  obtain ⟨root, s1⟩ := out
  obtain ⟨next, known⟩ := getRootExpr_consistent zero consistent inside found
  have scanned := getRootExpr_tracks tracks zero consistent inside found
  have nothing : savedAtoms σ s l result = [] → ∀ s2, Tracks σ s2 atoms →
      Tracks σ s2 (if addNested then atoms ++ savedAtoms σ s l result else atoms) := by
    intro none s2 same
    rw [none, append_nil, ite_self]
    exact same
  cases root with
  | none =>
    simp only [parseCond, found]
    exact nothing (by simp only [savedAtoms, found]) s1 scanned
  | some root =>
    obtain ⟨valid, cached⟩ := known root rfl
    simp only [parseCond, found]
    split
    next constant =>
      exact nothing (by simp [savedAtoms, found, constant]) s1 scanned
    rename_i varying
    split
    next failed =>
      exact nothing (by simp [savedAtoms, found, failed]) s1 scanned
    rename_i t nnf
    have parsed := parseClauses_tracks scanned next (toDnf t [])
    have follows := (follows_steps σ).parseClauses s1 (toDnf t [])
    have notEmpty : ¬(root.kind = .bool ∨ toNnf (!result) root = none) := by
      rw [nnf]
      rintro (constant | failed)
      · exact varying constant
      · cases failed
    cases addNested with
    | false =>
      simp only [nested]
      exact parsed
    | true =>
      obtain ⟨id, ready⟩ := ready rfl
      simp only [nested, saveConstraint]
      simp only [savedAtoms, found, if_neg notEmpty]
      cases same : toNnf result root with
      | none =>
        rw [append_nil]
        exact parsed
      | some t' =>
        refine saveVars_tracks parsed (follows.consistent next) fun a mem => ?_
        obtain ⟨_, inDnf, inClause⟩ := List.mem_flatten.mp mem
        obtain ⟨-, drawable, covered⟩ := ready.atoms next valid cached same inDnf inClause
        rw [follows.caches]
        exact ⟨⟨id, drawable⟩, covered⟩

lemma NestedRun.tracks (run : NestedRun σ s saved) : Tracks σ s saved.flatten := by
  induction run with
  | restart => exact restart_tracks σ
  | memcmp before label content ih =>
    exact ih.frame ⟨ih.bits.aligned, ih.bits.entry⟩ (Nat.le_refl _) rfl rfl
  | cond before l result addNested inside ready ih =>
    have next := parseCond_tracks nested zero ih (before.reached.consistent zero) l result
      addNested inside ready
    cases addNested with
    | false => exact next
    | true =>
      simp only [if_true, List.flatten_append, List.flatten_singleton] at next ⊢
      exact next

end

/-- A nested task has the constraints of its clause, and those of all connected branches
if these are joined with the highest byte of a comparison of the clause. -/
theorem parseCond_nested_connected (σ : Setting) (nested : σ.solveNested = true)
    (s s' : State) (saved : List (List AstNode)) (run : NestedRun σ s saved) (id l : Nat)
    (result addNested : Bool) (inside : Inside σ.parser l) (ready : Ready σ.parser id l)
    (tasks : List Task) (h : parseCond σ s l result addNested = (true, tasks, s'))
    (task : Task) (stored : task ∈ tasks) (base : List (Constraint × AstKind))
    (isNested : task.base = some base) :
    ∃ root t clause, s'.rootExprs l = some root ∧ toNnf (!result) root = some t ∧
      clause ∈ toDnf t [] ∧
      (∀ a, a ∈ clause → ∃ made, made ∈ task.constraints ∧ ConstraintFor σ.parser.info made a) ∧
      (Covered σ.parser saved (toDnf t []).flatten clause →
        ∀ old, old ∈ saved → Touches σ.parser saved old (toDnf t []).flatten → ∀ a, a ∈ old →
          ∃ made, made ∈ task.constraints ∧ ConstraintFor σ.parser.info made a) := by
  have consistent := run.reached.consistent ready.zero
  have tracks := run.tracks nested ready.zero
  obtain ⟨root, t, _, found, nnf, isTask⟩ := parseCond_task h stored
  obtain ⟨next, known⟩ := getRootExpr_consistent ready.zero consistent inside found
  obtain ⟨valid, cached⟩ := known root rfl
  have scanned := getRootExpr_tracks tracks ready.zero consistent inside found
  have follows := parseCond_follows result addNested found
  rw [h] at follows
  obtain ⟨clause, inDnf, s2, ⟨between, here⟩, n, s3, collected, constraints⟩ :=
    parseClauses_nested scanned next isTask isNested
  have start : Gathers (clause ++ saved.flatten)
      ⟨clause, clause.map (·.data.label), false⟩ :=
    ⟨fun l mem => mem_map.mp mem, fun node mem => mem_append_left _ mem⟩
  obtain ⟨gathers, after, keeps, joins⟩ := collectVars_gathers clause here
    (between.consistent next) start fun a mem => mem_append_right _ mem
  have last := (follows_steps σ).collect s2 ⟨clause, clause.map (·.data.label), false⟩ clause
  rw [collected] at gathers after keeps joins last
  have own : ∀ a ∈ clause, Drawable σ.parser id a.data.label ∧
      a.data.label < s2.caches.astSize.length := by
    intro a inClause
    rw [between.caches]
    exact (ready.atoms next valid cached nnf inDnf inClause).2
  -- every node of the nested clause has its constraint
  have made : ∀ a ∈ n.clause,
      ∃ made ∈ task.constraints, ConstraintFor σ.parser.info made a := by
    intro a inNested
    have parsable : (∃ id, Drawable σ.parser id a.data.label) ∧
        a.data.label < s3.caches.astSize.length := by
      rcases mem_append.mp (gathers.clause a inNested) with inClause | old
      · obtain ⟨drawable, covered⟩ := own a inClause
        rw [last.caches]
        exact ⟨⟨id, drawable⟩, covered⟩
      · exact after.atoms a old
    rw [constraints]
    exact constructTask_mem (last.consistent (between.consistent next)) inNested
      parsable.1 parsable.2
  refine ⟨root, t, clause, ?_, nnf, inDnf, fun a inClause => made a (keeps a inClause), ?_⟩
  · rw [follows.roots]
    exact cached
  intro covered old inSaved touches a inOld
  obtain ⟨⟨var, top, x, inClause, highest, inBytes, joined⟩, unique⟩ :=
    covered old inSaved touches a inOld
  obtain ⟨drawable, scannedVar⟩ := own var inClause
  obtain ⟨node, inNested, label⟩ := joins var inClause ⟨id, drawable⟩ scannedVar top
    highest a x (List.mem_flatten.mpr ⟨old, inSaved, inOld⟩) inBytes joined
  have kind := unique node (gathers.clause node inNested) label
  obtain ⟨c, inTask, operator, drawn⟩ := made node inNested
  rw [label] at drawn
  exact ⟨c, inTask, operator.trans kind, drawn⟩

/-- A parser of one input of 4 bytes with nested solving. -/
def nestedSetting (info : Nat → LabelInfo) : Setting :=
  { plainSetting info with solveNested := true }

/-- Two comparisons of a byte with a constant, and one of the two bytes. -/
def order : Nat → LabelInfo := (TableGrowth.tableOf [⟨0, 0, 0, 0, .input, 8, 0⟩,
  ⟨0, 0, 1, 0, .input, 8, 0⟩, ⟨1, 0, 0, 65, .icmp .bveq, 8, 0⟩,
  ⟨2, 0, 0, 66, .icmp .bveq, 8, 0⟩, ⟨1, 2, 0, 0, .icmp .bvult, 8, 0⟩] 1000).info

/-- The comparison of the bytes after that of the second one. -/
theorem parseCond_nested_connected_order : let σ := nestedSetting order
    let s := (parseCond σ (restart σ.parser) 4 true true).2.2
    let saved := [savedAtoms σ (restart σ.parser) 4 true]
    saved.map (·.map fun a => (a.kind, a.data.label)) = [[(.equal, 4)]] ∧
    ∃ tasks s' task base root t clause, parseCond σ s 5 true true = (true, tasks, s') ∧
      task ∈ tasks ∧ task.base = some base ∧ s'.rootExprs 5 = some root ∧
      toNnf false root = some t ∧ clause ∈ toDnf t [] ∧
      (∀ a, a ∈ clause → ∃ made, made ∈ task.constraints ∧ ConstraintFor order made a) ∧
      ∀ old, old ∈ saved → Touches σ.parser saved old (toDnf t []).flatten ∧ ∀ a, a ∈ old →
        ∃ made, made ∈ task.constraints ∧ ConstraintFor order made a := by
  intro σ s saved
  have inside : ∀ k, k < 6 → 1 ≤ k → insideInputs σ.parser k = true := by decide
  have alone : ∀ l < 6, 3 ≤ l →
      ∀ k ∈ footprint σ.parser (tableCaches σ.parser l).nested l, k = l := by decide +kernel
  have ready : ∀ l < 6, 3 ≤ l → width (order l) = 1 →
      RootsClean σ.parser (tableCaches σ.parser l) False l → Drawable σ.parser 0 l →
      Ready σ.parser 0 l := by
    intro l high low bit clean drawable
    refine ⟨rfl, dag_of_range (n := 5) (by decide) (by omega), bit, clean, ?_⟩
    rintro k ⟨member, -, -⟩
    rw [alone l high low k member]
    exact drawable
  have ready4 : Ready σ.parser 0 4 := ready 4 (by decide) (by decide) rfl
    ⟨by decide +kernel, by decide +kernel⟩
    (drawable_of_dag [4, 2] rfl (by decide) (by decide) (by decide))
  have ready5 : Ready σ.parser 0 5 := ready 5 (by decide) (by decide) rfl
    ⟨by decide +kernel, by decide +kernel⟩
    (drawable_of_dag [5, 1, 2] rfl (by decide) (by decide) (by decide))
  have run : NestedRun σ s saved :=
    .cond .restart 4 true true (fun k pos le => inside k (by omega) pos) fun _ => ⟨0, ready4⟩
  have kinds : saved.map (·.map fun a => (a.kind, a.data.label)) = [[(.equal, 4)]] := by
    decide +kernel
  have bytes : labelBytes σ.parser 4 = [1] ∧ labelBytes σ.parser 5 = [0, 1] := by decide +kernel
  have success : (parseCond σ s 5 true true).1 = true := by decide +kernel
  have shape : (parseCond σ s 5 true true).2.1.map (fun task => task.base.isSome) =
      [false, true] := by decide +kernel
  have clauses : ((parseCond σ s 5 true true).2.2.rootExprs 5).map (fun root =>
      (toNnf false root).map fun t =>
        (toDnf t []).map (·.map fun atom => (atom.kind, atom.data.label))) =
      some (some [[(.uge, 5)]]) := by decide +kernel
  generalize branch : parseCond σ s 5 true true = out at success shape clauses
  obtain ⟨_, _, s'⟩ := out
  cases success
  obtain ⟨plain, _, rfl, -, one⟩ := List.map_eq_cons_iff.mp shape
  obtain ⟨task, rfl, isNested⟩ := map_eq_singleton_iff.mp one
  obtain ⟨base, isNested⟩ := Option.isSome_iff_exists.mp isNested
  have stored : task ∈ [plain, task] := mem_cons_of_mem _ (mem_singleton.mpr rfl)
  obtain ⟨root, t, clause, cached, nnf, inDnf, own, connected⟩ :=
    parseCond_nested_connected σ rfl s s' saved run 0 5 true true
      (fun k pos le => inside k (by omega) pos) ready5 _ branch task stored base isNested
  refine ⟨kinds, _, s', task, base, root, t, clause, rfl, stored, isNested, cached, nnf, inDnf,
    own, ?_⟩
  rw [Bool.not_true] at nnf
  rw [cached, Option.map_some, nnf, Option.map_some, Option.some_inj, Option.some_inj] at clauses
  obtain ⟨single, dnf, atoms⟩ := map_eq_singleton_iff.mp clauses
  obtain ⟨a, rfl, comparison⟩ := map_eq_singleton_iff.mp atoms
  obtain ⟨_, isSaved, atoms4⟩ := map_eq_singleton_iff.mp kinds
  obtain ⟨b, rfl, constant⟩ := map_eq_singleton_iff.mp atoms4
  simp only [Prod.mk.injEq] at comparison constant
  rw [dnf] at inDnf connected ⊢
  cases mem_singleton.mp inDnf
  rw [isSaved] at connected ⊢
  have inOld : 1 ∈ branchBytes σ.parser [b] := by
    simp [branchBytes, constant.2, bytes.1]
  have inNew : 1 ∈ branchBytes σ.parser [[a]].flatten := by
    simp [branchBytes, comparison.2, bytes.2]
  have touches : Touches σ.parser [[b]] [b] [[a]].flatten :=
    ⟨1, 1, inOld, inNew, .single ⟨[b], mem_singleton.mpr rfl, inOld, inOld⟩⟩
  have covered : Covered σ.parser [[b]] [[a]].flatten [a] := by
    intro old inSaved _ x inOld
    cases mem_singleton.mp inSaved
    cases mem_singleton.mp inOld
    refine ⟨⟨a, 1, 1, mem_singleton.mpr rfl, ?_, ?_, .refl 1⟩, ?_⟩
    · rw [comparison.2, bytes.2]
      rfl
    · rw [constant.2, bytes.1]
      exact mem_singleton.mpr rfl
    intro node mem label
    rcases mem_cons.mp mem with rfl | mem
    · rw [comparison.2, constant.2] at label
      cases label
    · rw [mem_singleton.mp mem]
  intro old inSaved
  cases mem_singleton.mp inSaved
  exact ⟨touches, connected covered [b] (mem_singleton.mpr rfl) touches⟩

/-- The comparison of the bytes after those of both. The set of the first byte is dropped
for that of the second, so an input that satisfies the nested task need not take the
first branch. -/
theorem parseCond_nested_drops_branch : let σ := nestedSetting order
    let s1 := (parseCond σ (restart σ.parser) 3 true true).2.2
    let s2 := (parseCond σ s1 4 true true).2.2
    let saved := [savedAtoms σ (restart σ.parser) 3 true, savedAtoms σ s1 4 true]
    let inp : Input := ⟨fun _ i => if i = 0 then 67 else 66, fun _ => 0⟩
    saved.map (·.map fun a => (a.kind, a.data.label)) = [[(.equal, 3)], [(.equal, 4)]] ∧
    ∃ tasks s' root t task base, parseCond σ s2 5 true true = (true, tasks, s') ∧
      s'.rootExprs 5 = some root ∧ toNnf false root = some t ∧ task ∈ tasks ∧
      task.base = some base ∧
      Touches σ.parser saved (savedAtoms σ (restart σ.parser) 3 true) (toDnf t []).flatten ∧
      (∀ made, made ∈ task.constraints → Satisfies 0 inp made) ∧ den order inp 3 = 0 := by
  intro σ s1 s2 saved inp
  have kinds : saved.map (·.map fun a => (a.kind, a.data.label)) =
      [[(.equal, 3)], [(.equal, 4)]] := by decide +kernel
  have bytes : branchBytes σ.parser (savedAtoms σ (restart σ.parser) 3 true) = [0] := by
    decide +kernel
  have success : (parseCond σ s2 5 true true).1 = true := by decide +kernel
  have clauses : ((parseCond σ s2 5 true true).2.2.rootExprs 5).map (fun root =>
      (toNnf false root).map fun t => branchBytes σ.parser (toDnf t []).flatten) =
      some (some [0, 1]) := by decide +kernel
  have shape : (parseCond σ s2 5 true true).2.1.map (fun task =>
      (task.base.isSome, decide (∀ made ∈ task.constraints, Satisfies 0 inp made))) =
      [(false, true), (true, true)] := by decide +kernel
  generalize parseCond σ s2 5 true true = out at success clauses shape
  obtain ⟨_, _, s'⟩ := out
  cases success
  obtain ⟨root, cached, negated⟩ := Option.map_eq_some_iff.mp clauses
  obtain ⟨t, nnf, newBytes⟩ := Option.map_eq_some_iff.mp negated
  obtain ⟨_, _, rfl, -, one⟩ := List.map_eq_cons_iff.mp shape
  obtain ⟨task, rfl, facts⟩ := map_eq_singleton_iff.mp one
  simp only [Prod.mk.injEq, decide_eq_true_eq] at facts
  obtain ⟨isNested, satisfied⟩ := facts
  obtain ⟨base, isNested⟩ := Option.isSome_iff_exists.mp isNested
  have inOld : 0 ∈ branchBytes σ.parser (savedAtoms σ (restart σ.parser) 3 true) := by
    rw [bytes]
    exact mem_singleton.mpr rfl
  refine ⟨kinds, _, s', root, t, task, base, rfl, cached, nnf,
    mem_cons_of_mem _ (mem_singleton.mpr rfl), isNested,
    ⟨0, 0, inOld, ?_, .single ⟨_, mem_cons_self, inOld, inOld⟩⟩, satisfied, by decide +kernel⟩
  rw [newBytes]
  exact mem_cons_self

end Runs

end NestedTasks
