import SymSan.TraceHooks
import SymSan.Z3Parser
import SymSan.UtaRel

/-!
# The bytes of a memory comparison

The concrete side of a comparison travels in three steps. `__taint_union` shares
labels: its record names the address of the concrete buffer, not what is in it.
`__taint_trace_memcmp` sends what is there now. `record_memcmp` keeps the first
content it gets for a label. The parser therefore builds the constraint of a
comparison from the bytes that the *first* comparison with this record saw. Over
a whole run these are the bytes of every comparison as long as no comparison
finds something else where an earlier one of the same record looked, and as long
as the length fits the 16 bits that a record has for it.
-/

namespace ComparedBytes

open LabelTable TableGrowth TaintUnion UnionLoad RuntimeOps PipeMessages TraceHooks

/-! ## Comparisons of a symbolic buffer with a concrete one -/

/-- `dfsan_read_label` on the table. -/
def readSide (fl : Flags) (mem : Nat → Nat) (m : Machine) (s : Runtime) (ptr addr n : Nat) :
    Option (Nat × Runtime) :=
  if n = 0 then some (0, s)
  else unionLoad fl mem s ptr (m.cells addr) (fun i => .ofNat 8 (mem (addr + i))) n

/-- The label a comparison gets, the address of its concrete side, and what it is
compared with: the label of the symbolic side and the first bytes of its data. -/
structure Comparison where
  label : Nat
  concrete : Nat
  symbolic : Nat
  piece : Nat

/-- The first bytes of a symbolic buffer, as a record keeps them. -/
def pieceAt (mem : Nat → Nat) (addr n : Nat) : Nat :=
  copyPiece mem addr (if 8 < n then 8 else n)

/-- A comparison with exactly one symbolic side. -/
def comparison (fl : Flags) (mem : Nat → Nat) (m : Machine) (c : CompareCall) : Option Comparison :=
  (readSide fl mem m m.table c.shadow1 c.s1 c.n).bind fun r1 =>
  (readSide fl mem m r1.2 c.shadow2 c.s2 c.n).bind fun r2 =>
  (taintUnion fl mem r2.2 .fmemcmp (c.n % 2 ^ 16) ⟨r1.1, r2.1, c.s1, c.s2⟩).bind fun r =>
  if r1.1 = 0 ∧ r2.1 ≠ 0 then some ⟨r.1, c.s1, r2.1, pieceAt mem c.s2 (c.n % 2 ^ 16)⟩
  else if r1.1 ≠ 0 ∧ r2.1 = 0 then some ⟨r.1, c.s2, r1.1, pieceAt mem c.s1 (c.n % 2 ^ 16)⟩
  else none

structure Matches (s : Runtime) (c : CompareCall) (k : Comparison) : Prop where
  pos : 1 ≤ k.label
  known : k.label ≤ s.last
  first : (s.info k.label).l1 = 0
  second : (s.info k.label).l2 = k.symbolic
  concrete : (s.info k.label).op1 = k.concrete
  piece : (s.info k.label).op2 = k.piece
  size : (s.info k.label).size = c.n % 2 ^ 16

lemma Matches.extends {s s' : Runtime} {c : CompareCall} {k : Comparison}
    (h : Matches s c k) (ext : Extends s s') : Matches s' c k := by
  have last := ext.last
  have info := ext.same k.label (.inl h.known)
  have known := h.known
  constructor
  · exact h.pos
  · omega
  all_goals rw [info]
  · exact h.first
  · exact h.second
  · exact h.concrete
  · exact h.piece
  · exact h.size

section Records

variable {fl : Flags} {mem : Nat → Nat} {s s' : Runtime} {key : LabelInfo} {orig : Operands}
  {size l : Nat} {m : Machine} {r1 r2 r3 : Nat × Runtime} {o : Operands}

/-- The record of a comparison of concrete data at `a` with symbolic data at `b`,
whichever side the program put them on. -/
lemma fmemcmp_key {a b sym : Nat} (symbolic : sym ≠ 0)
    (sides : o = ⟨0, sym, a, b⟩ ∨ o = ⟨sym, 0, b, a⟩)
    (prepared : prepare mem s .fmemcmp size o = .key key orig) :
    key.l1 = 0 ∧ key.l2 = sym ∧ key.op1 = a ∧ key.op2 = pieceAt mem b size := by
  obtain ⟨rfl, _, _, _, rfl⟩ := prepare_key prepared
  have ordered : orderOperands .fmemcmp o = ⟨0, sym, a, b⟩ := by
    rcases sides with rfl | rfl
    · simp [orderOperands]
    · have commutes : isCommutative .fmemcmp = true := by decide
      simp [orderOperands, commutes, Nat.pos_of_ne_zero symbolic]
  have one : 1 ≤ sym := Nat.one_le_iff_ne_zero.mpr symbolic
  simp only [ordered, unionKey, recordOperands, if_true, one, pieceAt]
  exact ⟨trivial, trivial, by simp, trivial⟩

lemma fmemcmp_found (made : taintUnion fl mem s .fmemcmp size o = some (l, s')) (nonzero : l ≠ 0)
    (init : l ≠ kInitializingLabel) :
    ∃ key orig, prepare mem s .fmemcmp size o = .key key orig ∧ sameKey (s'.info l) key = true := by
  rcases taintUnion_cases made with ⟨ret, rfl⟩ | ⟨key, orig, prepared, ⟨hit, rfl⟩ | built⟩
  · rcases prepare_fmemcmp_ret ret with zero | uninit
    · exact absurd zero nonzero
    · exact absurd uninit init
  · have same := List.find?_some hit
    exact ⟨key, orig, prepared, same⟩
  · obtain ⟨_, _, _, record⟩ := buildLabel_some (P := fun _ _ => True)
      (fun _ _ _ _ _ _ _ => trivial) (fun _ _ _ => trivial) built
    exact ⟨key, orig, prepared, by rw [record]; exact sameKey_refl key⟩

/-- Exactly one of the two labels of a record that holds an address is zero. -/
lemma fmemcmp_sides {l1 l2 a b : Nat}
    (made : taintUnion fl mem s .fmemcmp size ⟨l1, l2, a, b⟩ = some (l, s')) (nonzero : l ≠ 0)
    (init : l ≠ kInitializingLabel) (side : ¬ ((s'.info l).l1 ≠ 0 ∧ (s'.info l).l2 ≠ 0)) :
    l1 = 0 ∧ l2 ≠ 0 ∨ l1 ≠ 0 ∧ l2 = 0 := by
  obtain ⟨_, _, prepared, same⟩ := fmemcmp_found made nonzero init
  obtain ⟨f1, f2, _⟩ := (sameKey_iff _ _).mp same
  obtain ⟨k1, k2, _⟩ := prepare_key_fields prepared
  obtain ⟨rfl, early, _⟩ := prepare_key prepared
  rw [f1, f2, k1, k2] at side
  have some : ¬ ((orderOperands .fmemcmp ⟨l1, l2, a, b⟩).l1 = 0 ∧
      (orderOperands .fmemcmp ⟨l1, l2, a, b⟩).l2 = 0) := by
    rintro ⟨z1, z2⟩
    simp [earlyReturn, z1, z2] at early
  rcases orderOperands_cases .fmemcmp ⟨l1, l2, a, b⟩ with plain | ⟨_, swapped⟩
  · rw [plain] at side some
    simp only at side some
    omega
  · rw [swapped] at side some
    simp only at side some
    omega

lemma readSide_grown {ptr addr n : Nat} (read : readSide fl mem m s ptr addr n = some (l, s')) :
    Grown s s' := by
  unfold readSide at read
  split at read
  · cases read
    exact .refl
  · exact .of (RoundTrip.unionLoad_counted read)

lemma comparison_cases {c : CompareCall} {k : Comparison}
    (first : readSide fl mem m m.table c.shadow1 c.s1 c.n = some r1)
    (second : readSide fl mem m r1.2 c.shadow2 c.s2 c.n = some r2)
    (made : taintUnion fl mem r2.2 .fmemcmp (c.n % 2 ^ 16) ⟨r1.1, r2.1, c.s1, c.s2⟩ = some r3)
    (compared : comparison fl mem m c = some k) :
    k.label = r3.1 ∧ k.symbolic ≠ 0 ∧ ∃ b, k.piece = pieceAt mem b (c.n % 2 ^ 16) ∧
      ((⟨r1.1, r2.1, c.s1, c.s2⟩ : Operands) = ⟨0, k.symbolic, k.concrete, b⟩ ∨
        (⟨r1.1, r2.1, c.s1, c.s2⟩ : Operands) = ⟨k.symbolic, 0, b, k.concrete⟩) := by
  simp only [comparison, first, second, made, Option.bind_some] at compared
  split at compared
  next sides =>
    cases compared
    exact ⟨rfl, sides.2, c.s2, rfl, .inl (by rw [sides.1])⟩
  · split at compared
    next sides =>
      cases compared
      exact ⟨rfl, sides.1, c.s1, rfl, .inr (by rw [sides.2])⟩
    · cases compared

lemma comparison_matches {c : CompareCall} {k : Comparison} (stocked : Stocked m.table)
    (first : readSide fl mem m m.table c.shadow1 c.s1 c.n = some r1)
    (second : readSide fl mem m r1.2 c.shadow2 c.s2 c.n = some r2)
    (made : taintUnion fl mem r2.2 .fmemcmp (c.n % 2 ^ 16) ⟨r1.1, r2.1, c.s1, c.s2⟩ = some r3)
    (compared : comparison fl mem m c = some k) (nonzero : k.label ≠ 0)
    (init : k.label ≠ kInitializingLabel) : Matches r3.2 c k := by
  obtain ⟨label, symbolic, b, piece, sides⟩ := comparison_cases first second made compared
  have stocked2 : Stocked r2.2 :=
    (stocked.grown (readSide_grown first)).grown (readSide_grown second)
  rw [label] at nonzero init
  obtain ⟨_, _, prepared, same⟩ := fmemcmp_found made nonzero init
  obtain ⟨f1, f2, _, _, f3, f4⟩ := (sameKey_iff _ _).mp same
  obtain ⟨k1, k2, c1, c2⟩ := fmemcmp_key symbolic sides prepared
  rcases fmemcmp_label stocked2 made with zero | uninit | ⟨pos, le, sized⟩
  · exact absurd zero nonzero
  · exact absurd uninit init
  constructor
  all_goals rw [label]
  · exact pos
  · exact le
  · exact f1.trans k1
  · exact f2.trans k2
  · exact f3.trans c1
  · rw [piece]
    exact f4.trans c2
  · exact sized

end Records

/-! ## What the hooks send -/

/-- No message of the list carries content of a comparison. -/
def NoContent (messages : List Message) : Prop :=
  ∀ m ∈ messages, ∀ label data, m.payload ≠ .memcmp label data

lemma NoContent.append {ms ms' : List Message} (h : NoContent ms) (h' : NoContent ms') :
    NoContent (ms ++ ms') := List.forall_mem_append.mpr ⟨h, h'⟩

lemma noContent_nil : NoContent [] := fun _ mem => absurd mem List.not_mem_nil

lemma noContent_one {m : Message} (plain : m.payload = .none) : NoContent [m] := by
  intro m' mem label data
  rw [List.mem_singleton.mp mem, plain]
  simp

section Quiet

variable {opts : Options} {mem : Nat → Nat} {p : Process} {α : Type}

lemma solveCond_quiet (t : Tracer) (label result : Nat) (addNested : Bool)
    (loopFlag cid addr : Nat) :
    NoContent (solveCond t label result addNested loopFlag cid addr) := by
  unfold solveCond
  split
  · exact noContent_nil
  · exact noContent_one rfl

lemma uninitialised_quiet (label result cid addr : Nat) :
    NoContent (uninitialised opts p label result cid addr).sent := by
  simp only [uninitialised, sendUbi]
  split
  · split
    · exact noContent_nil
    · exact noContent_one rfl
  · exact noContent_nil

lemma traceCond_quiet (label : Nat) (r : Bool) (flag cid addr : Nat) :
    NoContent (traceCond opts p label r flag cid addr).sent := by
  unfold traceCond
  split
  · exact noContent_nil
  · split
    · exact uninitialised_quiet label r.toNat cid addr
    · exact solveCond_quiet _ _ _ _ _ _ _

lemma andThen_quiet {r : Reaction} {f : Process → Reaction} (first : NoContent r.sent)
    (second : ∀ p', NoContent (f p').sent) : NoContent (r.andThen f).sent := by
  unfold Reaction.andThen
  split
  · exact first.append (second r.process)
  · exact first

lemma traceProbes_quiet (opts : Options) (p : Process) (conds : List TraceCond) :
    NoContent (traceProbes opts p conds).sent := by
  induction conds generalizing p with
  | nil => exact noContent_nil
  | cons c rest ih => exact andThen_quiet (traceCond_quiet _ _ _ _ _) ih

/-- The process with the table of a runtime call. -/
def Process.setTable (p : Process) (s : Runtime) : Process := ⟨⟨s, p.machine.shadow⟩, p.tracer⟩

open Process (setTable)

/-- A hook that makes a runtime call and goes on with `k`: it dies before it gets
there, or it sends reports of probes and then what `k` sends. -/
def Leads {α : Type} (p : Process) (result : Option (α × Runtime)) (k : α → Process → Reaction)
    (r : Reaction) : Prop :=
  r.alive = false ∧ NoContent r.sent ∨
    ∃ a s reports, result = some (a, s) ∧ NoContent reports ∧
      r = ⟨reports ++ (k a (setTable p s)).sent, (k a (setTable p s)).process,
        (k a (setTable p s)).alive⟩

lemma update_leads (opts : Options) (p : Process) (result : Option (α × Runtime))
    (k : α → Process → Reaction) : Leads p result k (update opts p result k) := by
  rcases result with _ | r
  · exact .inl ⟨rfl, noContent_nil⟩
  obtain ⟨a, s⟩ := r
  have quiet := traceProbes_quiet opts (setTable p s)
    (s.conds.drop p.machine.table.conds.length)
  change Leads p (some (a, s)) k ((traceProbes opts (setTable p s)
    (s.conds.drop p.machine.table.conds.length)).andThen (k a))
  unfold Reaction.andThen
  split
  · refine .inr ⟨a, s, _, rfl, quiet, ?_⟩
    rw [traceProbes_process]
  next dead =>
    exact .inl ⟨by simpa using dead, quiet⟩

lemma update_quiet {result : Option (α × Runtime)} {k : α → Process → Reaction}
    (rest : ∀ a p', NoContent (k a p').sent) : NoContent (update opts p result k).sent := by
  rcases update_leads opts p result k with ⟨_, quiet⟩ | ⟨a, s, reports, _, quiet, eq⟩
  · exact quiet
  · rw [eq]
    exact quiet.append (rest a _)

lemma readLabel_leads (opts : Options) (mem : Nat → Nat) (p : Process) (ptr addr n : Nat)
    (k : Nat → Process → Reaction) :
    Leads p (readSide opts.toFlags mem p.machine p.machine.table ptr addr n) k
      (readLabel opts mem p ptr addr n k) := by
  unfold readLabel readSide
  split
  · exact .inr ⟨0, p.machine.table, [], rfl, noContent_nil, rfl⟩
  · exact update_leads opts p _ k

lemma perform_quiet (opts : Options) (p : Process) (a : Action)
    (other : ∀ mem c addr, a ≠ .memcmp mem c addr) : NoContent (perform opts p a).sent := by
  cases a with
  | call step =>
    simp only [perform]
    split
    · exact noContent_nil
    · exact traceProbes_quiet _ _ _
  | callstack context => exact noContent_nil
  | cond label r flag cid addr => exact traceCond_quiet _ _ _ _ _
  | cmp mem op1 op2 size predicate c1 c2 cid addr =>
    simp only [perform, traceCmp]
    split
    · exact noContent_nil
    split
    · exact uninitialised_quiet _ _ _ _
    split
    · exact uninitialised_quiet _ _ _ _
    · refine update_quiet fun temp p' => ?_
      split
      · exact noContent_nil
      · exact solveCond_quiet _ _ _ _ _ _ _
  | switchEnd cid addr =>
    simp only [perform, traceSwitchEnd]
    split
    · exact noContent_nil
    · exact solveCond_quiet _ _ _ _ _ _ _
  | select mem condLabel trueLabel falseLabel r trueOp falseOp cid addr =>
    simp only [perform, traceSelect]
    split
    · exact noContent_nil
    split
    · exact uninitialised_quiet _ _ _ _
    split
    · exact update_quiet fun land p' => solveCond_quiet _ _ _ _ _ _ _
    · split
      · exact update_quiet fun lor p' => solveCond_quiet _ _ _ _ _ _ _
      · exact solveCond_quiet _ _ _ _ _ _ _
  | line lineId result symbolic cid =>
    simp only [perform, lineCoverage]
    split
    · exact noContent_nil
    · intro m mem
      rw [List.mem_ite_nil_right, List.mem_singleton] at mem
      rw [mem.2]
      simp
  | gep c cid addr =>
    simp only [perform, traceGep]
    split
    · exact noContent_nil
    split
    · exact uninitialised_quiet _ _ _ _
    split
    · exact uninitialised_quiet _ _ _ _
    split
    · exact noContent_nil
    · intro m mem
      rw [List.mem_singleton.mp mem]
      simp
  | memcmp mem c addr => exact absurd rfl (other mem c addr)
  | memerr ptrLabel ptr sizeLabel size flag addr =>
    simp only [perform, traceMemerr]
    split
    · exact noContent_nil
    · split
      · exact noContent_nil
      · split <;> first | exact noContent_one rfl | exact noContent_nil

end Quiet

/-! ## One comparison -/

section Comparing

open Process (setTable)

variable {opts : Options} {mem : Nat → Nat} {p : Process} {c : CompareCall} {addr : Nat}

def conclude (opts : Options) (mem : Nat → Nat) (addr ret : Nat) (p : Process) : Reaction :=
  if ret = 0 then silent p else traceMemcmp opts mem p ret addr

/-- A comparison that the process survives until its union has read both labels
and made the record; only reports of probes come before the rest. -/
lemma taintMemcmp_leads (opts : Options) (mem : Nat → Nat) (p : Process) (c : CompareCall)
    (addr : Nat) :
    (taintMemcmp opts mem p c addr).alive = false ∧
        NoContent (taintMemcmp opts mem p c addr).sent ∨
      ∃ r1 r2 r3 reports,
        readSide opts.toFlags mem p.machine p.machine.table c.shadow1 c.s1 c.n = some r1 ∧
        readSide opts.toFlags mem p.machine r1.2 c.shadow2 c.s2 c.n = some r2 ∧
        taintUnion opts.toFlags mem r2.2 .fmemcmp (c.n % 2 ^ 16) ⟨r1.1, r2.1, c.s1, c.s2⟩ =
          some r3 ∧
        NoContent reports ∧
        taintMemcmp opts mem p c addr =
          ⟨reports ++ (conclude opts mem addr r3.1 (setTable p r3.2)).sent,
            (conclude opts mem addr r3.1 (setTable p r3.2)).process,
            (conclude opts mem addr r3.1 (setTable p r3.2)).alive⟩ := by
  unfold taintMemcmp
  rcases readLabel_leads opts mem p c.shadow1 c.s1 c.n _ with dead | ⟨l1, s1, q1, e1, h1, eq1⟩
  · exact .inl dead
  rw [eq1]
  rcases readLabel_leads opts mem (setTable p s1) c.shadow2 c.s2 c.n _ with
    ⟨dead, quiet⟩ | ⟨l2, s2, q2, e2, h2, eq2⟩
  · exact .inl ⟨dead, h1.append quiet⟩
  rw [eq2]
  have tail := update_leads opts (setTable (setTable p s1) s2)
    (taintUnion opts.toFlags mem (setTable (setTable p s1) s2).machine.table
      .fmemcmp (c.n % 2 ^ 16) ⟨l1, l2, c.s1, c.s2⟩) (conclude opts mem addr)
  rcases tail with ⟨dead, quiet⟩ | ⟨ret, s3, q3, e3, h3, eq3⟩
  · exact .inl ⟨dead, h1.append (h2.append quiet)⟩
  refine .inr ⟨(l1, s1), (l2, s2), (ret, s3), q1 ++ (q2 ++ q3), e1, e2, e3,
    h1.append (h2.append h3), ?_⟩
  change (⟨q1 ++ (q2 ++ (update opts _ _ (conclude opts mem addr)).sent),
    (update opts _ _ (conclude opts mem addr)).process,
    (update opts _ _ (conclude opts mem addr)).alive⟩ : Reaction) = _
  rw [eq3]
  simp only [List.append_assoc]
  rfl

/-- What a comparison with a concrete side puts on the pipe. -/
def comparisonPayload (mem : Nat → Nat) (c : CompareCall) (k : Comparison) : Payload :=
  .memcmp (.ofNat 32 k.label) (content mem k.concrete (c.n % 2 ^ 16))

lemma taintMemcmp_content (stocked : Stocked p.machine.table) {m : Message}
    (sent : m ∈ (taintMemcmp opts mem p c addr).sent) {label : BitVec 32}
    {data : List (BitVec 8)} (payload : m.payload = .memcmp label data) :
    ∃ k, comparison opts.toFlags mem p.machine c = some k ∧
      m.payload = comparisonPayload mem c k ∧
      Matches (taintMemcmp opts mem p c addr).process.machine.table c k := by
  rcases taintMemcmp_leads opts mem p c addr with
    ⟨_, quiet⟩ | ⟨r1, r2, r3, reports, first, second, made, quiet, eq⟩
  · exact absurd payload (quiet m sent label data)
  rw [eq] at sent ⊢
  rcases List.mem_append.mp sent with early | sent
  · exact absurd payload (quiet m early label data)
  unfold conclude at sent ⊢
  split at sent
  · cases sent
  rename_i nonzero
  rw [if_neg nonzero]
  unfold traceMemcmp at sent ⊢
  rw [if_neg nonzero] at sent ⊢
  split at sent
  · exact absurd payload (uninitialised_quiet _ _ _ _ m sent label data)
  rename_i init
  rw [if_neg init]
  split at sent
  · cases sent
  rename_i opened
  rw [if_neg opened]
  rw [List.mem_singleton.mp sent] at payload ⊢
  split at payload
  · cases payload
  rename_i side
  rw [if_neg side]
  have compared : ∃ k, comparison opts.toFlags mem p.machine c = some k := by
    simp only [comparison, first, second, made, Option.bind_some]
    rcases fmemcmp_sides made nonzero init side with ⟨z1, s2⟩ | ⟨s1, z2⟩
    · exact ⟨_, if_pos ⟨z1, s2⟩⟩
    · exact ⟨_, by rw [if_neg (fun both => s1 both.1), if_pos ⟨s1, z2⟩]⟩
  obtain ⟨k, compared⟩ := compared
  have named : k.label = r3.1 := (comparison_cases first second made compared).1
  have record : Matches r3.2 c k :=
    comparison_matches stocked first second made compared (named ▸ nonzero) (named ▸ init)
  refine ⟨k, compared, ?_, record⟩
  simp only [comparisonPayload, named, ← record.concrete, ← record.size]
  rfl

lemma taintMemcmp_sends (stocked : Stocked p.machine.table) {k : Comparison}
    (compared : comparison opts.toFlags mem p.machine c = some k) (nonzero : k.label ≠ 0)
    (init : k.label ≠ kInitializingLabel) (opened : 0 ≤ p.tracer.pipeFd)
    (alive : (taintMemcmp opts mem p c addr).alive = true) :
    (∃ m ∈ (taintMemcmp opts mem p c addr).sent, m.payload = comparisonPayload mem c k) ∧
      Matches (taintMemcmp opts mem p c addr).process.machine.table c k := by
  rcases taintMemcmp_leads opts mem p c addr with
    ⟨dead, _⟩ | ⟨r1, r2, r3, reports, first, second, made, _, eq⟩
  · rw [alive] at dead
    cases dead
  have record : Matches r3.2 c k :=
    comparison_matches stocked first second made compared nonzero init
  have named : k.label = r3.1 := (comparison_cases first second made compared).1
  have side : ¬ ((r3.2.info r3.1).l1 ≠ 0 ∧ (r3.2.info r3.1).l2 ≠ 0) := by
    intro both
    have zero := record.first
    rw [named] at zero
    exact both.1 zero
  have sends : conclude opts mem addr r3.1 (setTable p r3.2) =
      ⟨[⟨p.tracer.header .memcmp 1 addr 0 r3.1 (r3.2.info r3.1).size,
        .memcmp (.ofNat 32 r3.1) (content mem (r3.2.info r3.1).op1 (r3.2.info r3.1).size)⟩],
        setTable p r3.2, true⟩ := by
    rw [named] at nonzero init
    have shut : ¬ (setTable p r3.2).tracer.pipeFd < 0 := Int.not_lt.mpr opened
    have side' : ¬ (((setTable p r3.2).machine.table.info r3.1).l1 ≠ 0 ∧
        ((setTable p r3.2).machine.table.info r3.1).l2 ≠ 0) := side
    simp only [conclude, traceMemcmp, if_neg nonzero, if_neg init, if_neg shut, if_neg side']
    rfl
  rw [eq, sends]
  refine ⟨⟨_, List.mem_append_right _ List.mem_cons_self, ?_⟩, record⟩
  rw [← named, record.concrete, record.size]
  rfl

end Comparing

/-! ## The parser's side -/

section Parser

variable {c : Z3Parser.Caches} {l : Nat} {found bytes : Nat → BitVec 8} {m : Message}
  {ms : List Message} {n : Nat}

/-- A message as `record_memcmp` gets it. -/
def listen (c : Z3Parser.Caches) (m : Message) : Z3Parser.Caches :=
  match m.payload with
  | .memcmp label data => c.recordMemcmp label.toNat fun i => data.getD i 0
  | _ => c

/-- The content that a parser has for each label after it has heard some messages. -/
def heard (messages : List Message) : Nat → Option (Nat → BitVec 8) :=
  (messages.foldl listen Z3Parser.Caches.restart).memcmp

lemma listen_entry (entry : (listen c m).memcmp l = some found) :
    c.memcmp l = some found ∨ ∃ label data, m.payload = .memcmp label data ∧ l = label.toNat ∧
      found = fun i => data.getD i 0 := by
  unfold listen at entry
  split at entry
  next label data payload =>
    simp only [Z3Parser.Caches.recordMemcmp] at entry
    split at entry
    next new =>
      cases entry
      exact .inr ⟨label, data, payload, new.1, rfl⟩
    · exact .inl entry
  · exact .inl entry

lemma listen_keeps (entry : c.memcmp l = some found) : (listen c m).memcmp l = some found := by
  unfold listen
  split
  next label data _ =>
    have known : ¬ (l = label.toNat ∧ c.memcmp l = none) := by
      intro new
      rw [entry] at new
      cases new.2
    simp only [Z3Parser.Caches.recordMemcmp, if_neg known]
    exact entry
  · exact entry

lemma foldl_listen_keeps (ms : List Message) (entry : c.memcmp l = some found) :
    (ms.foldl listen c).memcmp l = some found := by
  induction ms generalizing c with
  | nil => exact entry
  | cons m rest ih => exact ih (listen_keeps entry)

lemma foldl_listen_entry (entry : (ms.foldl listen c).memcmp l = some found) :
    c.memcmp l = some found ∨ ∃ m ∈ ms, ∃ label data, m.payload = .memcmp label data ∧
      l = label.toNat ∧ found = fun i => data.getD i 0 := by
  induction ms generalizing c with
  | nil => exact .inl entry
  | cons m rest ih =>
    rcases ih entry with here | ⟨m', mem, later⟩
    · rcases listen_entry here with old | new
      · exact .inl old
      · exact .inr ⟨m, List.mem_cons_self, new⟩
    · exact .inr ⟨m', List.mem_cons_of_mem m mem, later⟩

lemma foldl_listen_present (mem : m ∈ ms) {label : BitVec 32} {data : List (BitVec 8)}
    (payload : m.payload = .memcmp label data) :
    ∃ found, (ms.foldl listen c).memcmp label.toNat = some found := by
  induction ms generalizing c with
  | nil => cases mem
  | cons m' rest ih =>
    rcases List.mem_cons.mp mem with rfl | later
    · have now : ∃ found, (listen c m).memcmp label.toNat = some found := by
        simp only [listen, payload, Z3Parser.Caches.recordMemcmp]
        split
        · exact ⟨_, rfl⟩
        next known =>
          exact Option.ne_none_iff_exists'.mp fun none => known ⟨trivial, none⟩
      obtain ⟨found, now⟩ := now
      exact ⟨found, foldl_listen_keeps rest now⟩
    · exact ih later

/-- What both parsers make of the content for a comparison of `n` bytes. -/
structure BuildsFrom (s : Runtime) (cache : Nat → Option (Nat → BitVec 8)) (label : Nat)
    (bytes : Nat → BitVec 8) (n : Nat) : Prop where
  size : (s.info label).size = n
  content : ∃ found, cache label = some found ∧ ∀ i, i < n → found i = bytes i
  z3 : Z3Parser.readConcrete (cache label) (s.info label).size =
    Z3Parser.readConcrete (some bytes) n
  rgd : (cache label).map (fun found => UtaRel.contentWords found (s.info label).size) =
    some (UtaRel.contentWords bytes n)

lemma readConcrete_congr (pos : 1 ≤ n) (same : ∀ i < n, found i = bytes i) :
    Z3Parser.readConcrete (some found) n = Z3Parser.readConcrete (some bytes) n := by
  simp only [Z3Parser.readConcrete, Option.bind_some]
  split
  · rfl
  · rw [same 0 pos]
    refine List.foldl_ext _ _ _ fun val i mem => ?_
    rw [same (i + 1) (by have := List.mem_range.mp mem; omega)]

lemma contentWords_congr (same : ∀ i < n, found i = bytes i) :
    UtaRel.contentWords found n = UtaRel.contentWords bytes n := by
  refine List.map_congr_left fun i _ => ?_
  congr 1
  funext j
  split
  next inside =>
    rw [same _ inside]
  · rfl

end Parser

/-! ## Runs -/

section Runs

variable {opts : Options} {p p1 start : Process} {before rest : List Action}
  {made : (Nat → Nat) → CompareCall → Comparison → Prop} {c : Z3Parser.Caches} {mem : Nat → Nat}

/-- The process before its next action, if it is still alive. -/
def reach (opts : Options) : Process → List Action → Option Process
  | p, [] => some p
  | p, a :: rest =>
    if (perform opts p a).alive then reach opts (perform opts p a).process rest else none

/-- The process when it has done what it could. -/
def finish (opts : Options) : Process → List Action → Process
  | p, [] => p
  | p, a :: rest =>
    if (perform opts p a).alive then finish opts (perform opts p a).process rest
    else (perform opts p a).process

lemma run_append (reached : reach opts p before = some p1) :
    stages opts p (before ++ rest) = stages opts p before ++ stages opts p1 rest ∧
      finish opts p (before ++ rest) = finish opts p1 rest := by
  induction before generalizing p with
  | nil =>
    cases reached
    exact ⟨rfl, rfl⟩
  | cons a before ih =>
    obtain ⟨alive, reached⟩ := Option.ite_none_right_eq_some.mp reached
    simp [stages, finish, alive, ih reached]

lemma finish_extends (opts : Options) (stocked : Stocked p.machine.table)
    (actions : List Action) : Extends p.machine.table (finish opts p actions).machine.table := by
  induction actions generalizing p with
  | nil => exact .refl _
  | cons a rest ih =>
    have grown := (perform_sound opts stocked a).grown
    unfold finish
    split
    · exact grown.toExtends.trans (ih (stocked.grown grown))
    · exact grown.toExtends

lemma reach_stocked (stocked : Stocked p.machine.table)
    (reached : reach opts p before = some p1) : Stocked p1.machine.table := by
  induction before generalizing p with
  | nil =>
    cases reached
    exact stocked
  | cons a before ih =>
    simp only [reach] at reached
    split at reached
    · exact ih (stocked.grown (perform_sound opts stocked a).grown) reached
    · cases reached

/-- A comparison that the run makes, with the memory it finds. -/
def Makes (opts : Options) (start : Process) (actions : List Action) (mem : Nat → Nat)
    (c : CompareCall) (k : Comparison) : Prop :=
  ∃ before addr after p, actions = before ++ .memcmp mem c addr :: after ∧
    reach opts start before = some p ∧ comparison opts.toFlags mem p.machine c = some k

/-- Lengths fit a record, and comparisons of the same symbolic data with the same
address find the same bytes there. -/
structure Undisturbed (opts : Options) (start : Process) (actions : List Action) : Prop where
  short : ∀ mem c k, Makes opts start actions mem c k → c.n < 2 ^ 16
  same : ∀ mem c k mem' c' k', Makes opts start actions mem c k →
    Makes opts start actions mem' c' k' → k.concrete = k'.concrete →
    k.symbolic = k'.symbolic → k.piece = k'.piece → c.n = c'.n →
    ∀ i, i < c.n → mem (k.concrete + i) % 256 = mem' (k.concrete + i) % 256

/-- Every content a parser has comes from a comparison with the label's record. -/
def Known (made : (Nat → Nat) → CompareCall → Comparison → Prop) (s : Runtime)
    (cache : Nat → Option (Nat → BitVec 8)) : Prop :=
  ∀ l found, cache l = some found → ∃ mem c k, made mem c k ∧ k.label = l ∧ Matches s c k ∧
    ∀ i, i < c.n % 2 ^ 16 → found i = .ofNat 8 (mem (k.concrete + i))

lemma Known.extends {s s' : Runtime} {cache : Nat → Option (Nat → BitVec 8)}
    (h : Known made s cache) (ext : Extends s s') : Known made s' cache := by
  intro l found entry
  obtain ⟨mem, c, k, here, label, record, bytes⟩ := h l found entry
  exact ⟨mem, c, k, here, label, record.extends ext, bytes⟩

lemma label_named {s : Runtime} (stocked : Stocked s) {l : Nat} (known : l ≤ s.last) :
    (BitVec.ofNat 32 l).toNat = l := by
  have room := stocked.room
  have top := stocked.top
  simp only [maxLabel] at top
  rw [BitVec.toNat_ofNat, Nat.mod_eq_of_lt (by omega)]

lemma perform_known (opts : Options) (stocked : Stocked p.machine.table) (a : Action)
    (h : Known made p.machine.table c.memcmp)
    (step : ∀ mem cmp addr k, a = .memcmp mem cmp addr →
      comparison opts.toFlags mem p.machine cmp = some k → made mem cmp k) :
    Known made (perform opts p a).process.machine.table
      ((perform opts p a).sent.foldl listen c).memcmp := by
  have sound := perform_sound opts stocked a
  intro l found entry
  rcases foldl_listen_entry entry with old | ⟨m, sent, label, data, payload, rfl, rfl⟩
  · exact h.extends sound.grown.toExtends l found old
  by_cases other : ∀ mem cmp addr, a ≠ .memcmp mem cmp addr
  · exact absurd payload (perform_quiet opts p a other m sent label data)
  simp only [not_forall, not_not] at other
  obtain ⟨mem, cmp, addr, rfl⟩ := other
  obtain ⟨k, compared, carried, record⟩ := taintMemcmp_content stocked sent payload
  rw [payload, comparisonPayload] at carried
  obtain ⟨rfl, rfl⟩ := carried
  refine ⟨mem, cmp, k, step mem cmp addr k rfl compared, ?_, record, ?_⟩
  · exact (label_named (stocked.grown sound.grown) record.known).symm
  · intro i inside
    generalize cmp.n % 2 ^ 16 = n at inside ⊢
    simp [content, inside]

lemma run_known {actions : List Action} (stocked : Stocked p.machine.table)
    (h : Known made p.machine.table c.memcmp)
    (steps : ∀ mem cmp k, Makes opts p actions mem cmp k → made mem cmp k) :
    Known made (finish opts p actions).machine.table
      ((sentBy (stages opts p actions)).foldl listen c).memcmp := by
  induction actions generalizing p c with
  | nil => exact h
  | cons a rest ih =>
    have next := perform_known opts stocked a h fun mem cmp addr k same compared =>
      steps mem cmp k ⟨[], addr, rest, p, by rw [same]; rfl, rfl, compared⟩
    have stocked' := stocked.grown (perform_sound opts stocked a).grown
    simp only [finish, stages, sentBy, List.flatMap_cons, List.foldl_append]
    split
    next alive =>
      refine ih stocked' next ?_
      rintro mem cmp k ⟨before, addr, after, p1, split, reached, compared⟩
      refine steps mem cmp k ⟨a :: before, addr, after, p1, by rw [split]; rfl, ?_, compared⟩
      simp only [reach, alive]
      exact reached
    · exact next

lemma comparison_pos {fl : Flags} {m : Machine} {c : CompareCall} {k : Comparison}
    (compared : comparison fl mem m c = some k) : 1 ≤ c.n := by
  by_contra empty
  have zero : c.n = 0 := by omega
  simp only [comparison, readSide, zero, if_true, Option.bind_some] at compared
  obtain ⟨r, _, sides⟩ := Option.bind_eq_some_iff.mp compared
  simp at sides

/-- A comparison that is sent has an entry at every later moment, and its record stays. -/
lemma comparison_heard {c : CompareCall} {addr : Nat} {k : Comparison} (mid : List Action)
    (stocked : Stocked start.machine.table) (reached : reach opts start before = some p)
    (compared : comparison opts.toFlags mem p.machine c = some k) (nonzero : k.label ≠ 0)
    (init : k.label ≠ kInitializingLabel) (opened : 0 ≤ p.tracer.pipeFd)
    (alive : (perform opts p (.memcmp mem c addr)).alive = true) :
    ∃ found, heard (sentBy (stages opts start (before ++ .memcmp mem c addr :: mid))) k.label =
        some found ∧
      Matches (finish opts start (before ++ .memcmp mem c addr :: mid)).machine.table c k := by
  have stockedHere : Stocked p.machine.table := reach_stocked stocked reached
  obtain ⟨⟨m, sent, payload⟩, record⟩ :=
    taintMemcmp_sends stockedHere compared nonzero init opened alive
  have stockedNext : Stocked (taintMemcmp opts mem p c addr).process.machine.table :=
    stockedHere.grown (perform_sound opts stockedHere (.memcmp mem c addr)).grown
  have onPipe : m ∈ sentBy (stages opts start (before ++ .memcmp mem c addr :: mid)) := by
    rw [(run_append reached).1]
    simp only [sentBy, List.flatMap_append]
    exact List.mem_append_right _ (List.mem_append_left _ sent)
  obtain ⟨found, entry⟩ := foldl_listen_present (c := Z3Parser.Caches.restart) onPipe payload
  rw [label_named stockedNext record.known] at entry
  refine ⟨found, entry, record.extends ?_⟩
  rw [(run_append reached).2]
  simp only [finish, alive]
  exact finish_extends opts stockedNext mid

/-- In every run that starts with an empty table and in which no comparison finds
other bytes where an earlier comparison of the same data looked, and none is longer
than a record can say, the parsers build the constraint of each comparison of a
symbolic with a concrete buffer from the bytes it saw, at every later moment. -/
theorem constraints_use_compared_bytes (opts : Options) (pipeFd : Int) (instanceId : Nat)
    (probeSite : UndefinedCheck → Nat) (actions : List Action)
    (undisturbed : Undisturbed opts (Process.start pipeFd instanceId probeSite) actions) :
    ∀ before mem c addr mid after p k,
      actions = before ++ .memcmp mem c addr :: (mid ++ after) →
      reach opts (Process.start pipeFd instanceId probeSite) before = some p →
      comparison opts.toFlags mem p.machine c = some k →
      k.label ≠ 0 → k.label ≠ kInitializingLabel → 0 ≤ p.tracer.pipeFd →
      (perform opts p (.memcmp mem c addr)).alive = true →
      BuildsFrom
        (finish opts (Process.start pipeFd instanceId probeSite)
          (before ++ .memcmp mem c addr :: mid)).machine.table
        (heard (sentBy (stages opts (Process.start pipeFd instanceId probeSite)
          (before ++ .memcmp mem c addr :: mid))))
        k.label (fun i => .ofNat 8 (mem (k.concrete + i))) c.n := by
  intro before mem c addr mid after p k split reached compared nonzero init opened alive
  have stocked := start_stocked pipeFd instanceId probeSite
  have here : Makes opts (Process.start pipeFd instanceId probeSite) actions mem c k :=
    ⟨before, addr, mid ++ after, p, split, reached, compared⟩
  have short := undisturbed.short mem c k here
  -- all that the parser has heard so far
  have known : Known (Makes opts (Process.start pipeFd instanceId probeSite) actions)
      (finish opts (Process.start pipeFd instanceId probeSite)
        (before ++ .memcmp mem c addr :: mid)).machine.table
      (heard (sentBy (stages opts (Process.start pipeFd instanceId probeSite)
        (before ++ .memcmp mem c addr :: mid)))) := by
    refine run_known stocked ?_ ?_
    · intro l found entry
      cases entry
    · rintro mem' c' k' ⟨first, addr', last, p', cut, reached', compared'⟩
      refine ⟨first, addr', last ++ after, p', ?_, reached', compared'⟩
      rw [split, ← List.cons_append, ← List.append_assoc, cut, List.append_assoc, List.cons_append]
  obtain ⟨found, entry, recordNow⟩ :=
    comparison_heard mid stocked reached compared nonzero init opened alive
  -- the content comes from a comparison with the same record
  obtain ⟨mem', c', k', made, label, record', bytes⟩ := known k.label found entry
  have same : k.concrete = k'.concrete ∧ k.symbolic = k'.symbolic ∧ k.piece = k'.piece ∧
      c.n % 2 ^ 16 = c'.n % 2 ^ 16 := by
    rw [← recordNow.concrete, ← recordNow.second, ← recordNow.piece, ← recordNow.size,
      ← record'.concrete, ← record'.second, ← record'.piece, ← record'.size, label]
    exact ⟨rfl, rfl, rfl, rfl⟩
  obtain ⟨concrete, symbolic, piece, length⟩ := same
  have short' := undisturbed.short mem' c' k' made
  rw [Nat.mod_eq_of_lt short, Nat.mod_eq_of_lt short'] at length
  have size := recordNow.size.trans (Nat.mod_eq_of_lt short)
  have bytes : ∀ i < c.n, found i = .ofNat 8 (mem (k.concrete + i)) := by
    intro i inside
    rw [bytes i (by omega), ← concrete]
    apply BitVec.eq_of_toNat_eq
    exact (undisturbed.same mem c k mem' c' k' here made concrete symbolic piece length i
      inside).symm
  refine ⟨size, ⟨found, entry, bytes⟩, ?_, ?_⟩
  · rw [entry, size]
    exact readConcrete_congr (comparison_pos compared) bytes
  · rw [entry, size, Option.map_some, contentWords_congr bytes]

def plainOptions : Options := ⟨⟨false, false, false, true⟩, false⟩

def fresh : Process := Process.start 3 0 fun _ => 0

/-- The first byte of the input arrives at address 8192. -/
def readByte : Action := .call ⟨fun _ => 65, .input 8192 0⟩

/-- It is compared with the byte at 12288. -/
def oneByte : CompareCall := ⟨8192, 12288, 32768, 49152, 1⟩

theorem constraints_use_compared_bytes_once :
    ∃ p k, reach plainOptions fresh [readByte] = some p ∧
      comparison plainOptions.toFlags (fun _ => 65) p.machine oneByte = some k ∧
      BuildsFrom
        (finish plainOptions fresh
          ([readByte] ++ .memcmp (fun _ => 65) oneByte 4096 :: [])).machine.table
        (heard (sentBy (stages plainOptions fresh
          ([readByte] ++ .memcmp (fun _ => 65) oneByte 4096 :: []))))
        k.label (fun i => .ofNat 8 ((fun _ => 65) (k.concrete + i))) oneByte.n := by
  have shape : ((reach plainOptions fresh [readByte]).bind fun p =>
      (comparison plainOptions.toFlags (fun _ => 65) p.machine oneByte).map fun k =>
        (k.label, decide (0 ≤ p.tracer.pipeFd),
          (perform plainOptions p (.memcmp (fun _ => 65) oneByte 4096)).alive)) =
      some (2, true, true) := by
    decide +kernel
  obtain ⟨p, reached, rest⟩ := Option.bind_eq_some_iff.mp shape
  obtain ⟨k, compared, facts⟩ := Option.map_eq_some_iff.mp rest
  simp only [Prod.mk.injEq, decide_eq_true_eq] at facts
  obtain ⟨label, opened, alive⟩ := facts
  -- the run makes one comparison only
  have only : ∀ mem c k, Makes plainOptions fresh
      [readByte, .memcmp (fun _ => 65) oneByte 4096] mem c k → mem = (fun _ => 65) ∧
        c = oneByte := by
    rintro mem c k ⟨before, addr, after, _, split, _⟩
    rcases before with _ | ⟨a, before⟩
    · simp [readByte] at split
    · rcases before with _ | ⟨b, before⟩
      · simp only [List.cons_append, List.nil_append, List.cons.injEq, Action.memcmp.injEq] at split
        exact ⟨split.2.1.1.symm, split.2.1.2.1.symm⟩
      · simp at split
  have undisturbed : Undisturbed plainOptions fresh
      [readByte, .memcmp (fun _ => 65) oneByte 4096] := by
    constructor
    · intro mem c k made
      rw [(only mem c k made).2]
      decide
    · intro mem c k mem' c' k' made made' _ _ _ _ i _
      rw [(only mem c k made).1, (only mem' c' k' made').1]
  refine ⟨p, k, reached, compared, ?_⟩
  exact constraints_use_compared_bytes plainOptions 3 0 (fun _ => 0) _ undisturbed [readByte] _ _
    4096 [] [] p k rfl reached compared (by rw [label]; decide) (by rw [label]; decide) opened alive

/-- The same addresses are compared twice; in between the concrete byte changes
from 65 to 66. Both comparisons get one label, whose content stays 65. -/
theorem overwritten_buffer_keeps_first_bytes :
    ∃ p k, reach plainOptions fresh [readByte, .memcmp (fun _ => 65) oneByte 4096] = some p ∧
      comparison plainOptions.toFlags (fun a => if a = 12288 then 66 else 65) p.machine oneByte =
        some k ∧
      k.concrete = 12288 ∧ k.label ≠ 0 ∧ k.label ≠ kInitializingLabel ∧
      0 ≤ p.tracer.pipeFd ∧
      (perform plainOptions p
        (.memcmp (fun a => if a = 12288 then 66 else 65) oneByte 4096)).alive = true ∧
      ¬ BuildsFrom
        (finish plainOptions fresh [readByte, .memcmp (fun _ => 65) oneByte 4096,
          .memcmp (fun a => if a = 12288 then 66 else 65) oneByte 4096]).machine.table
        (heard (sentBy (stages plainOptions fresh
          [readByte, .memcmp (fun _ => 65) oneByte 4096,
            .memcmp (fun a => if a = 12288 then 66 else 65) oneByte 4096])))
        k.label (fun i => .ofNat 8 (if k.concrete + i = 12288 then 66 else 65)) oneByte.n := by
  have shape : ((reach plainOptions fresh [readByte, .memcmp (fun _ => 65) oneByte 4096]).bind
      fun p => (comparison plainOptions.toFlags (fun a => if a = 12288 then 66 else 65) p.machine
        oneByte).map fun k => (k.label, k.concrete, decide (0 ≤ p.tracer.pipeFd),
          (perform plainOptions p
            (.memcmp (fun a => if a = 12288 then 66 else 65) oneByte 4096)).alive)) =
      some (2, 12288, true, true) := by
    decide +kernel
  have stale : ((heard (sentBy (stages plainOptions fresh
      [readByte, .memcmp (fun _ => 65) oneByte 4096,
        .memcmp (fun a => if a = 12288 then 66 else 65) oneByte 4096])) 2).map fun found =>
      found 0) = some 65 := by
    decide +kernel
  obtain ⟨p, reached, rest⟩ := Option.bind_eq_some_iff.mp shape
  obtain ⟨k, compared, facts⟩ := Option.map_eq_some_iff.mp rest
  simp only [Prod.mk.injEq, decide_eq_true_eq] at facts
  obtain ⟨label, concrete, opened, alive⟩ := facts
  refine ⟨p, k, reached, compared, concrete, by rw [label]; decide, by rw [label]; decide, opened,
    alive, ?_⟩
  intro builds
  obtain ⟨_, entry, bytes⟩ := builds.content
  rw [label] at entry
  rw [entry, Option.map_some, bytes 0 (by decide), concrete] at stale
  exact absurd stale (by decide)

end Runs

end ComparedBytes
