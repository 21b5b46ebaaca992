import SymSan.LoadSoundness
import SymSan.TableOrder

/-!
# Storing a label and loading it back

`__taint_union_store` spreads a label over shadow cells and
`__taint_union_load` collects it again. On every table that input labelling,
unions, loads and stores can build, the round trip of a label, over the whole
range and over every sub-range, is right exactly when `StoreOk` holds: the
successors of the first label of a Load are its bytes, and no size field is
taken for the width of a value on the extract path.
-/

namespace RoundTrip

open LabelTable Denotation TableGrowth TaintUnion UnionLoad LoadSoundness RuntimeOps TableOrder
open LittleEndian

/-! ## Tables built without the stack -/

/-- A Load record is no wider than the bytes it counts. -/
def Counted (r : LabelInfo) : Prop := r.op = .load → r.size ≤ 8 * r.l2

structure Built (s : Runtime) : Prop where
  topo : Topological s
  noStack : ∀ x, s.stackTop ≤ x → (s.info x).op ≠ .alloca
  fresh : ∀ x, s.last < x → x < s.stackTop → s.info x = zeroInfo
  loads : ∀ l, 1 ≤ l → l ≤ s.last → Counted (s.info l)

section Counting

variable {fl : Flags} {mem : Nat → Nat} {s s' t : Runtime} {op : Operator} {size : Nat}
  {o : Operands} {l n i label fuel ptr k : Nat} {ls ls' : Nat → Nat} {app : Nat → BitVec 8}

lemma taintUnion_counted (ok : op = .load → size ≤ 8 * o.l2)
    (h : taintUnion fl mem s op size o = some (l, s')) : Grows (fun _ r => Counted r) s s' := by
  refine taintUnion_grows (fun key orig hprep => ?_) h
  constructor
  · intro t r _ _ _ _ icmp hload
    rw [hload] at icmp
    cases icmp
  intro t _ _ hload
  obtain ⟨_, k2, ksize, hop⟩ := prepare_key_fields hprep
  rcases hop with hop | ⟨_, hop⟩
  · rw [hop] at hload
    subst hload
    rw [orderOperands_of_not_commutative (by decide)] at k2
    rw [ksize, k2]
    exact ok rfl
  · rw [hop] at hload
    cases hload

lemma slowPath_counted (h : slowPath fl mem ls app n fuel i label s = some (l, s')) :
    Grows (fun _ r => Counted r) s s' := by
  induction fuel generalizing i label s with
  | zero =>
    simp only [slowPath] at h
    split at h <;> cases h
    exact .refl
  | succ fuel ih =>
    have round : ∀ {size : Nat} {o : Operands} {next : Nat},
        ((taintUnion fl mem s .concat size o).bind fun r =>
          slowPath fl mem ls app n fuel next r.1 r.2) = some (l, s') →
        Grows (fun _ r => Counted r) s s' := by
      intro size o next hround
      obtain ⟨⟨_, _⟩, first, rest⟩ := Option.bind_eq_some_iff.mp hround
      exact (taintUnion_counted (fun no => by cases no) first).trans (ih rest)
    simp only [slowPath] at h
    split at h
    · cases h; exact .refl
    split at h
    · cases h; exact .refl
    split at h
    · split at h
      · exact round h
      · obtain ⟨⟨_, _⟩, first, rest⟩ := Option.bind_eq_some_iff.mp h
        exact (taintUnion_counted (fun no => by cases no) first).trans
          (taintUnion_counted (fun no => by cases no) rest)
    · exact round h

lemma unionLoad_counted (h : unionLoad fl mem s ptr ls app n = some (l, s')) :
    Grows (fun _ r => Counted r) s s' := by
  rcases unionLoad_cases h with ⟨rfl, _⟩ | hload | ⟨i, hslow⟩
  · exact .refl
  · refine taintUnion_counted (fun _ => ?_) hload
    simp only
    omega
  · exact slowPath_counted hslow

lemma unionStore_counted (h : unionStore fl mem s ptr l ls n = some (ls', s')) :
    Grows (fun _ r => Counted r) s s' := by
  have loop : ∀ {k i : Nat} {ls : Nat → Nat} {t : Runtime},
      storeExtracts fl mem l k i ls t = some (ls', s') →
      Grows (fun _ r => Counted r) t s' := by
    intro k
    induction k with
    | zero =>
      intro i ls t hloop
      simp only [storeExtracts, Option.some.injEq, Prod.mk.injEq] at hloop
      exact hloop.2 ▸ .refl
    | succ k ih =>
      intro i ls t hloop
      obtain ⟨⟨_, _⟩, first, rest⟩ := Option.bind_eq_some_iff.mp hloop
      exact (taintUnion_counted (fun no => by cases no) first).trans (ih rest)
  rcases unionStore_cases h with ⟨rfl, _⟩ | hloop
  · exact .refl
  · exact loop hloop

end Counting

/-- The calls that build a table without bounds of the stack. Instrumented code
leaves the opcode Load to `__taint_union_load`. -/
def Builds : Call → Prop
  | .input _ _ => True
  | .union op _ _ => op ≠ .load
  | .load _ _ _ _ => True
  | .store _ _ _ _ => True
  | _ => False

lemma Built.grows {s s' : Runtime} (built : Built s) (legal : Grows Legal s s')
    (counted : Grows (fun _ r => Counted r) s s') : Built s' := by
  have ext := legal.toExtends
  have top := ext.stackTop
  refine ⟨built.topo.grows legal, ?_, ?_, ?_⟩
  · intro x hx
    rw [ext.same x (.inr (by omega))]
    exact built.noStack x (by omega)
  · refine legal.invariant (I := fun s => ∀ x, s.last < x → x < s.stackTop → s.info x = zeroInfo)
      built.fresh ?_ (fun _ _ h => h) (fun _ _ _ h => h)
    intro t r fresh _ _ x hx hx'
    rw [Runtime.push_last] at hx
    rw [Runtime.push_info_of_ne t r (by omega)]
    exact fresh x (by omega) hx'
  · refine counted.invariant (I := fun s => ∀ l, 1 ≤ l → l ≤ s.last → Counted (s.info l))
      built.loads ?_ (fun _ _ h => h) (fun _ _ _ h => h)
    intro t r loads _ ok l pos le
    rw [Runtime.push_last] at le
    by_cases new : l = t.last + 1
    · rw [new, Runtime.push_info_new]; exact ok
    · rw [Runtime.push_info_of_ne t r new]; exact loads l pos (by omega)

lemma exec_built {fl : Flags} (m : Machine) (mem : Nat → Nat) (c : Call) (m' : Machine)
    (inv : Kept fl m ∧ Built m.table) (meets : Meets fl m c ∧ Builds c)
    (h : exec fl mem m c = some m') : Kept fl m' ∧ Built m'.table := by
  obtain ⟨kept, built⟩ := inv
  refine ⟨exec_kept m mem c m' kept meets.1 h, ?_⟩
  have passes := meets.1.1
  cases c with
  | input addr offset =>
    obtain ⟨⟨l, s'⟩, create, rfl⟩ := Option.map_eq_some_iff.mp h
    refine built.grows (createLabel_grows create).1 ?_
    obtain ⟨ok, ⟨⟩⟩ := Option.ite_none_right_eq_some.mp create
    exact Grows.refl.push (Runtime.checkLabel_lt ok) nofun
  | union op size o =>
    obtain ⟨⟨l, s'⟩, union, rfl⟩ := Option.map_eq_some_iff.mp h
    exact built.grows (taintUnion_usable kept.topo (.inr passes.1)
      (fun ne => .inr (passes.2 ne)) union).1
      (taintUnion_counted (fun load => absurd load meets.2) union)
  | load ptr addr n app =>
    obtain ⟨⟨l, _⟩, load, rfl⟩ := Option.map_eq_some_iff.mp h
    exact built.grows (unionLoad_usable kept.topo (fun j => kept.cells (addr + j)) load).1
      (unionLoad_counted load)
  | store ptr l addr n =>
    obtain ⟨⟨_, _⟩, store, rfl⟩ := Option.map_eq_some_iff.mp h
    exact built.grows (unionStore_usable kept.topo (.inr passes)
      (fun j => kept.cells (addr + j)) meets.1.2 store).1 (unionStore_counted store)
  | global addr size | bounds b => exact absurd meets.2 id

lemma Built.ordered {s : Runtime} (built : Built s) {l : Nat} (pos : 1 ≤ l)
    (le : l ≤ s.last) : Ordered s.info l := by
  have before : ∀ {x}, Placed s l x → x < l := by
    rintro x (lt | bounds)
    · exact lt
    · exact absurd bounds.2 (built.noStack x bounds.1)
  exact ⟨before (built.topo.first l pos le), fun ne => before (built.topo.second l pos le ne)⟩

/-! ## What has to hold -/

/-- The label loaded from a sub-range stands for those bytes of the label stored. -/
def Recovers (s s' : Runtime) (l i m l' : Nat) : Prop :=
  l' ≠ 0 ∧ l' ≤ s'.last ∧ width (s'.info l') = 8 * m ∧
    ∀ inp, den s'.info inp l' = den s.info inp l / 256 ^ i % 256 ^ m

/-- Store a label over `n` cells, then load any sub-range of them. -/
def RoundTrips (fl : Flags) (mem : Nat → Nat) (s : Runtime) (ptr l : Nat) (ls : Nat → Nat)
    (n : Nat) (app : Nat → BitVec 8) : Prop :=
  ∃ ls' s', unionStore fl mem s ptr l ls n = some (ls', s') ∧
    ∀ i m, 1 ≤ m → i + m ≤ n → ∃ l' s'',
      unionLoad fl mem s' (ptr + 4 * i) (fun j => ls' (i + j)) app m = some (l', s'') ∧
        Recovers s s'' l i m l'

/-- Label `c` is byte `j` of `l`. -/
def SpellsByte (s : Runtime) (l j c : Nat) : Prop :=
  1 ≤ c ∧ c ≤ s.last ∧ width (s.info c) = 8 ∧ ∀ inp, den s.info inp c = byteAt (den s.info inp l) j

/-- A one-byte label is not loaded back as the wider value it is an extract of. -/
def SingleOk (s : Runtime) (l : Nat) : Prop :=
  (s.info l).op = .extract → (s.info l).op2 = 0 → (s.info (s.info l).l1).size = 8 →
    (s.info l).l1 ≠ 0 ∧ width (s.info (s.info l).l1) = 8

structure StoreOk (s : Runtime) (l n : Nat) : Prop where
  single : n = 1 ∧ (s.info l).size = 8 → SingleOk s l
  load : ¬ (n = 1 ∧ (s.info l).size = 8) → (s.info l).op = .load →
    ∀ j, j < n → SpellsByte s l j ((s.info l).l1 + j)
  extract : ¬ (n = 1 ∧ (s.info l).size = 8) → (s.info l).op ≠ .load →
    ∀ m, 1 ≤ m → m < n → (s.info l).size ≠ 8 * m

/-! ## Cells that spell a label -/

/-- The cells are byte labels for the bytes of `l` from `i` on. -/
def Spelled (s s' : Runtime) (l i m : Nat) (cells : Nat → Nat) : Prop :=
  ∀ j, j < m → ByteCell s' (cells j) ∧ cells j ≠ 0 ∧
    ∀ inp, den s'.info inp (cells j) = byteAt (den s.info inp l) (i + j)

section Spelled

variable {fl : Flags} {mem : Nat → Nat} {s s' s'' : Runtime} {l i m l' ptr : Nat}
  {cells : Nat → Nat} {app : Nat → BitVec 8}

lemma spelled_word (spelled : Spelled s s' l i m cells) (inp : Input) :
    word (byteValue s'.info inp cells app) m = den s.info inp l / 256 ^ i % 256 ^ m := by
  rw [← word_byteAt_slice]
  apply word_congr
  intro j hj
  obtain ⟨_, ne, value⟩ := spelled j hj
  simp only [byteValue, if_neg ne]
  exact value inp

lemma recovers_iff (pos : 1 ≤ m) (spelled : Spelled s s' l i m cells) :
    Recovers s s'' l i m l' ↔ Faithful s' s'' cells app m l' := by
  simp only [Recovers, Faithful]
  by_cases zero : l' = 0
  · rw [if_pos zero]
    constructor
    · intro h
      exact absurd zero h.1
    · intro zeros
      exact absurd (zeros 0 pos) (spelled 0 pos).2.1
  · simp [zero, spelled_word spelled]

/-- Loading cells that spell a label recovers it exactly when the load is in order. -/
lemma load_recovers_iff (topo : Topological s') (mapped : 4096 ≤ ptr) (pos : 1 ≤ m)
    (room : s'.last + m < s'.stackTop) (spelled : Spelled s s' l i m cells) :
    (∃ l' s'', unionLoad fl mem s' ptr cells app m = some (l', s'') ∧
      Recovers s s'' l i m l') ↔ LoadOk s' cells app m := by
  have path : PathOk s' cells app m (unionLoad fl mem s' ptr cells app m) :=
    unionLoad_pathOk topo mapped pos (fun j hj => (spelled j hj).1) ⟨0, pos, (spelled 0 pos).2.1⟩
  constructor
  · rintro ⟨l', s'', load, recovers⟩
    exact (path.2 l' s'' load).mp ((recovers_iff pos spelled).mp recovers)
  · intro ok
    obtain ⟨⟨l', s''⟩, load⟩ := Option.isSome_iff_exists.mp (path.1 ok room)
    exact ⟨l', s'', load, (recovers_iff pos spelled).mpr ((path.2 l' s'' load).mpr ok)⟩

end Spelled

/-! ## A single byte -/

section Single

variable {s : Runtime} {l : Nat} {cells : Nat → Nat} {app : Nat → BitVec 8}

lemma loadOk_single (cell : ByteCell s l) (ne : l ≠ 0) (here : cells 0 = l) :
    LoadOk s cells app 1 ↔ SingleOk s l := by
  have zero : ∀ {i}, i < 1 → i = 0 := by
    omega
  constructor
  · intro ok extract offset parent
    have noShape : ¬ ShapeMatches s cells 1 := by
      rintro ⟨raw, _⟩
      rw [here, extract] at raw
      cases raw
    have extracts : ExtractsMatch s cells 1 := by
      refine ⟨?_, by rw [here]; exact parent⟩
      intro i hi
      rw [zero hi, here]
      exact ⟨extract, offset, rfl⟩
    have := ok.extracts noShape extracts
    rwa [here] at this
  · intro single
    refine ⟨?_, ?_, ?_⟩
    · rintro ⟨raw, _⟩
      refine ⟨by decide, fun inp i hi => ?_⟩
      rw [here] at raw
      rw [zero hi]
      simp only [byteValue, here, if_neg ne, shapeByte]
      exact den_input cell raw ne inp
    · rintro _ ⟨all, size⟩
      obtain ⟨extract, offset, _⟩ := all 0 (by decide)
      rw [here] at extract offset size ⊢
      exact single extract offset size
    · intro _ _
      refine ⟨by decide, fun i hi leading => ?_⟩
      have := leading 0 (by omega)
      rw [here] at this
      exact absurd this ne

lemma roundTrips_single {fl : Flags} {mem : Nat → Nat} {ptr : Nat} {ls : Nat → Nat}
    (built : Built s) (mapped : 4096 ≤ ptr) (pos : 1 ≤ l) (le : l ≤ s.last)
    (plain : (s.info l).op ≠ .alloca) (wide : width (s.info l) = 8) (size : (s.info l).size = 8)
    (room : s.last + 1 < s.stackTop) : RoundTrips fl mem s ptr l ls 1 app ↔ SingleOk s l := by
  have ne : l ≠ 0 := by omega
  have cell : ByteCell s l := .inr ⟨pos, le, wide, plain, built.ordered pos le⟩
  have store : unionStore fl mem s ptr l ls 1 = some (setCell ls 0 l, s) := by
    have notNull : ¬ ptr < 4096 := by omega
    have init := cell.ne_uninit built.topo
    simp [unionStore, notNull, init, le, ne, plain, size]
  have spelled : ∀ i, i + 1 ≤ 1 →
      Spelled s s l i 1 (fun j => setCell ls 0 l (i + j)) := by
    intro i hi j hj
    have here : setCell ls 0 l (i + j) = l := by
      rw [show i + j = 0 by omega]
      rfl
    simp only [here]
    refine ⟨cell, ne, fun inp => ?_⟩
    have lt := den_lt s.info inp l
    rw [wide] at lt
    rw [show i + j = 0 by omega, byteAt, Nat.pow_zero, Nat.div_one]
    exact (Nat.mod_eq_of_lt lt).symm
  constructor
  · rintro ⟨ls', s', stored, trips⟩
    rw [store] at stored
    cases stored
    have ok := (load_recovers_iff built.topo (by omega) (by omega) room (spelled 0 (by omega))).mp
      (trips 0 1 (by omega) (by omega))
    exact (loadOk_single cell ne rfl).mp ok
  · intro single
    refine ⟨_, s, store, ?_⟩
    intro i m posM range
    obtain ⟨rfl, rfl⟩ : i = 0 ∧ m = 1 := by omega
    exact (load_recovers_iff built.topo (by omega) (by omega) room (spelled 0 (by omega))).mpr
      ((loadOk_single cell ne rfl).mpr single)

end Single

/-! ## The default path -/

section Extracts

variable {fl : Flags} {mem : Nat → Nat} {s s' t : Runtime} {l n k i : Nat} {ls ls' : Nat → Nat}
  {app : Nat → BitVec 8} {m : Nat}

def extractKey (l j : Nat) : LabelInfo := ⟨l, 0, 0, 8 * j, .extract, 8, 0⟩

lemma extract_step (fl : Flags) (mem : Nat → Nat) (i : Nat) (topo : Topological t)
    (pos : 1 ≤ l) (le : l ≤ t.last) (plain : (t.info l).op ≠ .alloca) :
    (t.last + 1 < t.stackTop → ∃ r, taintUnion fl mem t .extract 8 ⟨l, 0, 0, i * 8⟩ = some r) ∧
      ∀ c t', taintUnion fl mem t .extract 8 ⟨l, 0, 0, i * 8⟩ = some (c, t') →
        Grows Legal t t' ∧ 1 ≤ c ∧ c ≤ t'.last ∧ t'.last ≤ t.last + 1 ∧
          sameKey (t'.info c) (extractKey l i) = true := by
  have move : IsByteMove .extract := .inr (.inl rfl)
  have early : earlyReturn t .extract ⟨l, 0, 0, i * 8⟩ = none := by
    have ne : l ≠ 0 := by omega
    simp [earlyReturn, ne, topo.ne_initializing le, zero_ne_initializing, plain,
      topo.const_not_bounds]
  constructor
  · intro labels
    obtain ⟨c, t', h⟩ := taintUnion_byteMove_of_room fl mem 8 ⟨l, 0, 0, i * 8⟩ topo move labels le
      (Nat.zero_le _)
    exact ⟨_, h⟩
  intro c t' h
  obtain ⟨posC, leC, bound, same⟩ := taintUnion_byteMove_some topo move early h
  have grows : Grows Legal t t' := taintUnion_legal (.inl le) (fun _ => .inl (Nat.zero_le _)) h
  refine ⟨grows, posC, leC, bound, ?_⟩
  have fields := sameKey_trans same (moveKey_fields move mem t 8 _)
  have eight : i * 8 = 8 * i := by omega
  simpa [extractKey, eight] using fields

/-- The whole default path: cell `j` gets a label with the fields of extract `j`. -/
lemma storeExtracts_cells (fl : Flags) (mem : Nat → Nat) (ls : Nat → Nat) (k i : Nat)
    (topo : Topological t) (pos : 1 ≤ l) (le : l ≤ t.last) (plain : (t.info l).op ≠ .alloca) :
    (t.last + k < t.stackTop → ∃ r, storeExtracts fl mem l k i ls t = some r) ∧
      ∀ ls' s', storeExtracts fl mem l k i ls t = some (ls', s') →
        Grows Legal t s' ∧ s'.last ≤ t.last + k ∧ (∀ j < i, ls' j = ls j) ∧
          ∀ j, i ≤ j → j < i + k → 1 ≤ ls' j ∧ ls' j ≤ s'.last ∧
            sameKey (s'.info (ls' j)) (extractKey l j) = true := by
  induction k generalizing i ls t with
  | zero =>
    refine ⟨fun _ => ⟨_, rfl⟩, ?_⟩
    rintro ls' s' ⟨⟩
    exact ⟨.refl, Nat.le_refl _, fun _ _ => rfl, fun j hj hk => by omega⟩
  | succ k ih =>
    have step := extract_step fl mem i topo pos le plain
    constructor
    · intro room
      obtain ⟨⟨c, t1⟩, first⟩ := step.1 (by omega)
      obtain ⟨grows, _, _, _, _⟩ := step.2 c t1 first
      have ext := grows.toExtends
      have last := ext.last
      have top := ext.stackTop
      simp only [storeExtracts, first]
      refine (ih _ _ (topo.grows grows) (by omega) ?_).1 (by omega)
      rw [ext.same l (.inl le)]
      exact plain
    · intro ls' s' h
      obtain ⟨⟨c, t1⟩, first, rest⟩ := Option.bind_eq_some_iff.mp h
      obtain ⟨grows, posC, leC, _, same⟩ := step.2 c t1 first
      have ext := grows.toExtends
      have last := ext.last
      have plain' : (t1.info l).op ≠ .alloca := by
        rw [ext.same l (.inl le)]
        exact plain
      obtain ⟨grows', _, below, cells⟩ :=
        (ih _ _ (topo.grows grows) (by omega) plain').2 ls' s' rest
      have ext' := grows'.toExtends
      have last' := ext'.last
      refine ⟨grows.trans grows', by omega, ?_, ?_⟩
      · intro j hj
        rw [below j (by omega)]
        simp only [setCell, if_neg (show ¬ j = i by omega)]
      intro j hj hk
      by_cases here : j = i
      · subst here
        have cell : ls' j = c := by
          rw [below j (by omega)]
          simp [setCell]
        rw [cell, ext'.same c (.inl leC)]
        exact ⟨posC, by omega, same⟩
      · exact cells j (by omega) (by omega)

lemma extracts_spelled (topo : Topological s') (ext : Extends s s') (pos : 1 ≤ l)
    (le : l ≤ s.last)
    (cells : ∀ j < n, 1 ≤ ls' j ∧ ls' j ≤ s'.last ∧
      sameKey (s'.info (ls' j)) (extractKey l j) = true) (range : i + m ≤ n) :
    Spelled s s' l i m (fun j => ls' (i + j)) := by
  intro j hj
  obtain ⟨posC, leC, same⟩ := cells (i + j) (by omega)
  obtain ⟨hwidth, hden⟩ := topo.den_of_fields ext posC leC same le (fun _ => Nat.zero_le _)
  obtain ⟨f1, f2, fop, _⟩ := (sameKey_iff _ _).mp same
  have room := topo.room
  have last := ext.last
  have ordered : Ordered s'.info (ls' (i + j)) := by
    refine topo.ordered posC leC ?_ fun _ => ?_
    · rw [f1]; simp only [extractKey]; omega
    · rw [f2]; simp only [extractKey]; omega
  have ne : l ≠ 0 := by omega
  refine ⟨.inr ⟨posC, leC, hwidth, by simp [fop, extractKey], ordered⟩,
    Nat.ne_of_gt posC, fun inp => ?_⟩
  rw [hden inp]
  simp only [evalRecord, extractKey, isInteger, applyOp, operand1, width, ne, reduceCtorEq,
    if_false, if_true]
  rw [two_pow_mul_eight, Nat.mod_mod, byteAt]
  rfl

/-- Which loads of stored extracts take the extract path, and when they should. -/
lemma extracts_loadOk (app : Nat → BitVec 8) (ext : Extends s s') (le : l ≤ s.last)
    (wide : width (s.info l) = 8 * n) (small : 8 * n < 2 ^ 16) (pos : 1 ≤ l)
    (cells : ∀ j < n, sameKey (s'.info (ls' j)) (extractKey l j) = true) (posM : 1 ≤ m)
    (range : i + m ≤ n) (spelled : Spelled s s' l i m (fun j => ls' (i + j))) :
    LoadOk s' (fun j => ls' (i + j)) app m ↔ (i = 0 → (s.info l).size = 8 * m → m = n) := by
  have sameInfo := ext.same l (.inl le)
  have field : ∀ j < m, (s'.info (ls' (i + j))).op = .extract ∧
      (s'.info (ls' (i + j))).op2 = 8 * (i + j) ∧ (s'.info (ls' (i + j))).l1 = l := by
    intro j hj
    obtain ⟨f1, _, fop, _, _, f2⟩ := (sameKey_iff _ _).mp (cells (i + j) (by omega))
    exact ⟨fop, f2, f1⟩
  obtain ⟨_, offset0, parent0⟩ := field 0 posM
  have noShape : ¬ ShapeMatches s' (fun j => ls' (i + j)) m := by
    rintro ⟨raw, _⟩
    rw [(field 0 posM).1] at raw
    cases raw
  have inSequence : ExtractsMatch s' (fun j => ls' (i + j)) m ↔
      i = 0 ∧ (s.info l).size = 8 * m := by
    constructor
    · rintro ⟨all, size⟩
      have offset := (all 0 posM).2.1
      rw [offset0] at offset
      simp only [parent0, sameInfo] at size
      exact ⟨by omega, size⟩
    · rintro ⟨rfl, size⟩
      constructor
      · intro j hj
        obtain ⟨extract, offset, parent⟩ := field j hj
        exact ⟨extract, offset.trans (by omega), parent.trans parent0.symm⟩
      · simp only [parent0, sameInfo]
        exact size
  constructor
  · rintro ok start size
    have parent := (ok.extracts noShape (inSequence.mpr ⟨start, size⟩)).2
    simp only [parent0, sameInfo] at parent
    omega
  intro same
  refine ⟨fun shape => absurd shape noShape, ?_, ?_⟩
  · intro _ extracts
    obtain ⟨start, size⟩ := inSequence.mp extracts
    simp only [parent0, sameInfo, wide, same start size]
    exact ⟨by omega, trivial⟩
  · intro _ _
    refine ⟨by omega, fun j hj leading => ?_⟩
    exact absurd (leading j (by omega)) (spelled j hj).2.1

/-- The default path is undone by every load unless the size field of the label
is that of a shorter load. -/
lemma roundTrips_extracts {ptr : Nat} (built : Built s) (mapped : 4096 ≤ ptr) (pos : 1 ≤ l)
    (le : l ≤ s.last) (plain : (s.info l).op ≠ .alloca) (wide : width (s.info l) = 8 * n)
    (small : 8 * n < 2 ^ 16) (notSingle : ¬ (n = 1 ∧ (s.info l).size = 8))
    (notLoad : (s.info l).op ≠ .load) (room : s.last + 2 * n < s.stackTop) :
    RoundTrips fl mem s ptr l ls n app ↔ ∀ m, 1 ≤ m → m < n → (s.info l).size ≠ 8 * m := by
  have top := built.topo.top
  have loop := storeExtracts_cells fl mem ls n 0 built.topo pos le plain
  obtain ⟨⟨ls', s'⟩, stored⟩ := loop.1 (by omega)
  obtain ⟨grows, _, _, cells⟩ := loop.2 ls' s' stored
  have store : unionStore fl mem s ptr l ls n = some (ls', s') := by
    have notNull : ¬ ptr < 4096 := by omega
    have init : l ≠ kInitializingLabel := by omega
    have ne : l ≠ 0 := by omega
    simp only [unionStore, notNull, init, le, ne, plain, notSingle, notLoad, true_or, not_true,
      and_false]
    exact stored
  have ext := grows.toExtends
  have topo' := built.topo.grows grows
  have stackTop := ext.stackTop
  have cell : ∀ j < n, 1 ≤ ls' j ∧ ls' j ≤ s'.last ∧
      sameKey (s'.info (ls' j)) (extractKey l j) = true := by
    intro j hj
    exact cells j (Nat.zero_le _) (by omega)
  have loads : ∀ i m, 1 ≤ m → i + m ≤ n → ((∃ l' s'',
      unionLoad fl mem s' (ptr + 4 * i) (fun j => ls' (i + j)) app m = some (l', s'') ∧
        Recovers s s'' l i m l') ↔ (i = 0 → (s.info l).size = 8 * m → m = n)) := by
    intro i m posM range
    have spelled := extracts_spelled topo' ext pos le cell range
    rw [← extracts_loadOk app ext le wide small pos
      (fun j hj => (cell j hj).2.2) posM range spelled]
    exact load_recovers_iff topo' (by omega) posM (by omega) spelled
  constructor
  · rintro ⟨ls1, s1, stored1, trips⟩ m posM lt size
    rw [store] at stored1
    cases stored1
    have := (loads 0 m posM (by omega)).mp (trips 0 m posM (by omega)) rfl size
    omega
  · intro sizes
    refine ⟨ls', s', store, ?_⟩
    intro i m posM range
    refine (loads i m posM range).mpr fun start size => ?_
    by_contra differs
    exact sizes m posM (by omega) size

end Extracts

/-! ## A Load label -/

section Loads

variable {fl : Flags} {mem : Nat → Nat} {s : Runtime} {l n i m c id j l' offset ptr : Nat}
  {ls cells : Nat → Nat} {app : Nat → BitVec 8} {s' : Runtime}

def ReadsInput (s : Runtime) (c id offset : Nat) : Prop :=
  ∀ inp, den s.info inp c = inputByte inp id offset

lemma inputByte_injective {id' offset' : Nat}
    (same : ∀ inp, inputByte inp id offset = inputByte inp id' offset') (k : Nat) (inp : Input) :
    inputByte inp id (offset + k) = inputByte inp id' (offset' + k) := by
  -- an input that is one at the first position only
  have marked := same ⟨fun a b => if a = id % 2 ^ 32 ∧ b = offset % 2 ^ 32 then 1 else 0,
    fun _ => 0⟩
  simp only [inputByte, and_self, if_true] at marked
  split at marked
  next here =>
    simp only [inputByte, here.1]
    rw [Nat.add_mod, ← here.2, ← Nat.add_mod]
  · exact absurd marked (by decide)

lemma byteAt_load (built : Built s) (pos : 1 ≤ l) (le : l ≤ s.last) (load : (s.info l).op = .load)
    (wide : width (s.info l) = 8 * n) (hj : j < n) (inp : Input) :
    byteAt (den s.info inp l) j =
      inputByte inp (s.info (s.info l).l1).op2 ((s.info (s.info l).l1).op1 + j) := by
  have size : (s.info l).size = 8 * n := by simpa only [width, load] using wide
  have counted : n ≤ (s.info l).l2 := by
    have := built.loads l pos le load
    omega
  rw [den_eq s.info inp (by omega) (built.ordered pos le), wide, two_pow_mul_eight]
  simp only [evalRecord, load, reduceCtorEq, if_false, if_true]
  rw [word_mod counted (fun k _ => inputByte_lt inp _ _)]
  exact byteAt_word hj (fun k _ => inputByte_lt inp _ _)

lemma not_readsInput_of_constant
    (constant : ∀ byte byte' other, den s.info ⟨byte, other⟩ c = den s.info ⟨byte', other⟩ c) :
    ¬ ReadsInput s c id offset := by
  intro reads
  have zeros := reads ⟨fun _ _ => 0, fun _ => 0⟩
  have ones := reads ⟨fun _ _ => 1, fun _ => 0⟩
  rw [constant _ (fun _ _ => 0), zeros] at ones
  exact absurd ones (by simp [inputByte])

lemma readsInput_not_other (reads : ReadsInput s c id offset) (ne : c ≠ 0)
    (ordered : Ordered s.info c) :
    isInteger (s.info c).op = true ∨ (s.info c).op = .input ∨ (s.info c).op = .load := by
  by_contra others
  simp only [not_or] at others
  obtain ⟨notInteger, notInput, notLoad⟩ := others
  refine not_readsInput_of_constant (fun byte byte' other => ?_) reads
  rw [den_eq _ _ ne ordered, den_eq _ _ ne ordered]
  simp [evalRecord, notInteger, notInput, notLoad]

/-- An extract of byte 0 reads the input only if its parent is as wide as its
size field says. -/
lemma readsInput_parent (built : Built s) (cell : ByteCell s c) (ne : c ≠ 0)
    (reads : ReadsInput s c id offset) (extract : (s.info c).op = .extract)
    (low : (s.info c).op2 = 0) :
    (s.info c).l1 ≠ 0 ∧ width (s.info (s.info c).l1) = (s.info (s.info c).l1).size := by
  have inside : 1 ≤ c ∧ c ≤ s.last := by
    rcases cell with zero | ⟨pos, le, _⟩
    · exact absurd zero ne
    · exact ⟨pos, le⟩
  have ordered := built.ordered inside.1 inside.2
  have parentNe : (s.info c).l1 ≠ 0 := by
    intro zero
    refine not_readsInput_of_constant (fun byte byte' other => ?_) reads
    rw [den_eq _ _ ne ordered, den_eq _ _ ne ordered]
    simp [evalRecord, extract, applyOp, operand1, zero]
  refine ⟨parentNe, ?_⟩
  have parentOrdered := built.ordered (Nat.pos_of_ne_zero parentNe)
    (Nat.le_of_lt (Nat.lt_of_lt_of_le ordered.1 inside.2))
  have value : ∀ inp, den s.info inp c = byteAt (den s.info inp (s.info c).l1) 0 :=
    den_extract cell extract (by omega) rfl parentNe ne
  generalize parent : s.info (s.info c).l1 = r
  cases hop : r.op with
  | icmp p =>
    -- a comparison is at most one
    have high := reads ⟨fun _ _ => 255, fun _ => 0⟩
    have small := den_lt s.info ⟨fun _ _ => 255, fun _ => 0⟩ (s.info c).l1
    rw [value, byteAt] at high
    simp only [parent, width, hop] at small
    have := Nat.mod_le (den s.info ⟨fun _ _ => 255, fun _ => 0⟩ (s.info c).l1 / 256 ^ 0) 256
    simp only [inputByte] at high this
    rw [show BitVec.toNat (255 : BitVec 8) = 255 by decide] at high
    omega
  | fmemcmp =>
    refine absurd reads (not_readsInput_of_constant fun byte byte' other => ?_)
    rw [value, value, den_eq _ _ parentNe parentOrdered, den_eq _ _ parentNe parentOrdered]
    simp [evalRecord, parent, hop, isInteger]
  | _ => simp only [width, hop]

lemma SpellsByte.cell (built : Built s) (reads : ReadsInput s c id offset) (pos : 1 ≤ c)
    (le : c ≤ s.last) (wide : width (s.info c) = 8) : ByteCell s c := by
  have ordered := built.ordered pos le
  refine .inr ⟨pos, le, wide, ?_, ordered⟩
  intro alloca
  have integer := readsInput_not_other reads (by omega) ordered
  rw [alloca] at integer
  simp [isInteger] at integer

lemma input_loadOk (built : Built s) (id offset : Nat) (posM : 1 ≤ m) (small : 8 * m < 2 ^ 16)
    (bytes : ∀ j < m, ByteCell s (cells j) ∧ cells j ≠ 0 ∧
      ReadsInput s (cells j) id (offset + j)) : LoadOk s cells app m := by
  obtain ⟨cell0, ne0, reads0⟩ := bytes 0 posM
  constructor
  · rintro ⟨raw, _⟩
    refine ⟨small, fun inp j hj => ?_⟩
    obtain ⟨_, ne, reads⟩ := bytes j hj
    simp only [byteValue, if_neg ne]
    rw [reads inp]
    refine inputByte_injective (fun inp => ?_) j inp
    rw [← den_input cell0 raw ne0 inp]
    exact (reads0 inp).symm
  · rintro _ ⟨all, size⟩
    obtain ⟨extract, _, _⟩ := all 0 posM
    obtain ⟨ne, width⟩ := readsInput_parent built cell0 ne0 reads0 extract (by omega)
    exact ⟨ne, width.trans size⟩
  · intro _ _
    refine ⟨small, fun j hj leading => ?_⟩
    exact absurd (leading j (Nat.lt_succ_self j)) (bytes j hj).2.1

section

variable (built : Built s) (mapped : 4096 ≤ ptr) (inside : cells 0 < s.stackTop)
  (h : unionLoad fl mem s ptr cells app 1 = some (l', s'))

include built mapped inside h

lemma unionLoad_one :
    s' = s ∧ (l' = cells 0 ∨ (s.info (cells 0)).op = .extract ∧ (s.info (cells 0)).op2 = 0 ∧
      (s.info (cells 0)).size = 8 ∧ l' = (s.info (cells 0)).l1) := by
  have top := built.topo.top
  have init : cells 0 ≠ kInitializingLabel := by omega
  have notNull : ¬ ptr < 4096 := by omega
  have slow : slowPath fl mem cells app 1 1 ((s.info (cells 0)).size / 8) (cells 0) s =
      some (l', s') → cells 0 ≠ 0 → s' = s ∧ l' = cells 0 := by
    intro hslow ne
    simp only [slowPath] at hslow
    split at hslow
    · cases hslow
      exact ⟨rfl, rfl⟩
    have zero : (s.info (cells 0)).size / 8 = 0 := by omega
    have fits : (s.info (cells 0)).size ≤ (1 - 0) * 8 := by omega
    -- a narrower label makes no progress
    simp only [zero, init, ne, fits, ne_eq] at hslow
    obtain ⟨r, _, rest⟩ := Option.bind_eq_some_iff.mp hslow
    simp at rest
  simp only [unionLoad, notNull, init, if_false] at h
  split at h
  · cases h
  simp only [constantScan, shapeScan] at h
  by_cases plain : cells 0 = 0 ∨ (s.info (cells 0)).op = .alloca
  · simp only [plain] at h
    cases h
    exact ⟨rfl, .inl rfl⟩
  simp only [plain, if_false] at h
  have ne : cells 0 ≠ 0 := fun zero => plain (.inl zero)
  by_cases raw : (s.info (cells 0)).op = .input
  · simp only [raw] at h
    cases h
    exact ⟨rfl, .inl rfl⟩
  simp only [raw, ne_eq, not_false_iff, if_true] at h
  split at h
  next extract =>
    by_cases low : (s.info (cells 0)).op2 = 0
    · have covered : extractScan s cells (s.info (cells 0)).l1 1 0 0 =
          some (s.info (cells 0)).size := by
        simp [extractScan, init, extract, low]
      simp only [covered] at h
      split at h
      next whole =>
        cases h
        exact ⟨rfl, .inr ⟨extract, low, whole.2, rfl⟩⟩
      · obtain ⟨rfl, rfl⟩ := slow h ne
        exact ⟨rfl, .inl rfl⟩
    · have covered : extractScan s cells (s.info (cells 0)).l1 1 0 0 = some 0 := by
        simp [extractScan, init, Ne.symm low]
      have nothing : ¬ ((s.info (s.info (cells 0)).l1).size = 0 ∧ 0 = 1 * 8) := by omega
      simp only [covered, if_neg nothing] at h
      obtain ⟨rfl, rfl⟩ := slow h ne
      exact ⟨rfl, .inl rfl⟩
  · obtain ⟨rfl, rfl⟩ := slow h ne
    exact ⟨rfl, .inl rfl⟩

lemma spellsByte_of_load (recovers : Recovers s s' l j 1 l') : SpellsByte s l j (cells 0) := by
  obtain ⟨rfl, returned⟩ := unionLoad_one built mapped inside h
  obtain ⟨ne, le, wide, value⟩ := recovers
  simp only [Nat.pow_one] at value
  rcases returned with rfl | ⟨extract, low, size, rfl⟩
  · exact ⟨Nat.pos_of_ne_zero ne, le, wide, value⟩
  have pos : 1 ≤ cells 0 := by
    by_contra zero
    rw [show cells 0 = 0 by omega, built.topo.const] at extract
    cases extract
  have leC : cells 0 ≤ s'.last := by
    by_contra above
    rw [built.fresh (cells 0) (by omega) inside] at extract
    cases extract
  have wideC : width (s'.info (cells 0)) = 8 := by
    simp only [width, extract]
    exact size
  have cell : ByteCell s' (cells 0) :=
    .inr ⟨pos, leC, wideC, by simp [extract], built.ordered pos leC⟩
  refine ⟨pos, leC, wideC, fun inp => ?_⟩
  rw [den_extract cell extract (i := 0) (by omega) rfl ne (by omega) inp, value inp, byteAt,
    Nat.pow_zero, Nat.div_one, Nat.mod_mod]
  rfl

end

/-- Breaking a Load label up is undone by every load exactly when the labels
after its first one are its bytes. -/
lemma roundTrips_load (built : Built s) (mapped : 4096 ≤ ptr) (pos : 1 ≤ l) (le : l ≤ s.last)
    (load : (s.info l).op = .load) (wide : width (s.info l) = 8 * n) (small : 8 * n < 2 ^ 16)
    (notSingle : ¬ (n = 1 ∧ (s.info l).size = 8)) (room : s.last + 2 * n < s.stackTop) :
    RoundTrips fl mem s ptr l ls n app ↔ ∀ j < n, SpellsByte s l j ((s.info l).l1 + j) := by
  have top := built.topo.top
  have init32 : kInitializingLabel < 2 ^ 32 := by decide
  have first := (built.ordered pos le).1
  have store : unionStore fl mem s ptr l ls n =
      some (fillCells ls n fun i => ((s.info l).l1 + i) % 2 ^ 32, s) := by
    have notNull : ¬ ptr < 4096 := by omega
    have init : l ≠ kInitializingLabel := by omega
    have ne : l ≠ 0 := by omega
    simp [unionStore, notNull, init, le, ne, notSingle, load]
  have cell : ∀ j < n,
      fillCells ls n (fun i => ((s.info l).l1 + i) % 2 ^ 32) j = (s.info l).l1 + j := by
    intro j hj
    simp only [fillCells, if_pos hj]
    exact Nat.mod_eq_of_lt (by omega)
  constructor
  · rintro ⟨ls', s', stored, trips⟩ j hj
    rw [store] at stored
    cases stored
    obtain ⟨_, _, loaded, recovers⟩ := trips j 1 (Nat.le_refl 1) (by omega)
    have here := cell (j + 0) hj
    have spells := spellsByte_of_load built (by omega) (by rw [here]; omega) loaded recovers
    rwa [here] at spells
  · intro spells
    refine ⟨_, s, store, ?_⟩
    intro i m posM range
    have bytes : ∀ j < m, ByteCell s ((s.info l).l1 + (i + j)) ∧ (s.info l).l1 + (i + j) ≠ 0 ∧
        ReadsInput s ((s.info l).l1 + (i + j)) (s.info (s.info l).l1).op2
          ((s.info (s.info l).l1).op1 + i + j) := by
      intro j hj
      obtain ⟨posC, leC, wideC, value⟩ := spells (i + j) (by omega)
      have reads : ReadsInput s ((s.info l).l1 + (i + j)) (s.info (s.info l).l1).op2
          ((s.info (s.info l).l1).op1 + i + j) := by
        intro inp
        rw [value inp, byteAt_load built pos le load wide (by omega) inp, Nat.add_assoc]
      exact ⟨SpellsByte.cell built reads posC leC wideC, by omega, reads⟩
    have spelled : Spelled s s l i m
        (fun j => fillCells ls n (fun i => ((s.info l).l1 + i) % 2 ^ 32) (i + j)) := by
      intro j hj
      simp only [cell (i + j) (by omega)]
      exact ⟨(bytes j hj).1, (bytes j hj).2.1, (spells (i + j) (by omega)).2.2.2⟩
    refine (load_recovers_iff built.topo (by omega) posM (by omega) spelled).mpr ?_
    refine input_loadOk built (s.info (s.info l).l1).op2 ((s.info (s.info l).l1).op1 + i) posM
      (by omega) fun j hj => ?_
    simp only [cell (i + j) (by omega)]
    exact bytes j hj

end Loads

/-! ## Every reachable table -/

lemma built_empty {top : Nat} (room : 0 < top) (le : top ≤ kInitializingLabel) :
    Built (tableOf [] top) := by
  have info : ∀ x ≠ 0, (tableOf [] top).info x = zeroInfo := by
    intro x ne
    simp [tableOf, ne]
  constructor
  · exact (tableOf_wellFormed room le (by simp)).toTopological
  · intro x hx
    simp only [tableOf] at hx
    rw [info x (by omega)]
    decide
  · intro x above _
    exact info x (by omega)
  · intro l pos bound
    simp [tableOf] at bound
    omega

/-- In every table that can be built, a label stored over its bytes comes back
from every load of them exactly when `StoreOk` holds. -/
theorem roundTrips_iff (fl : Flags) (top : Nat) (room0 : 0 < top) (le0 : top ≤ kInitializingLabel)
    (steps : List Step) (m : Machine)
    (meets : Throughout fl (fun m c => Meets fl m c ∧ Builds c) ⟨tableOf [] top, fun _ => 0⟩ steps)
    (run : runAll fl ⟨tableOf [] top, fun _ => 0⟩ steps = some m)
    (mem : Nat → Nat) (ptr l n : Nat) (ls : Nat → Nat) (app : Nat → BitVec 8)
    (mapped : 4096 ≤ ptr) (pos : 1 ≤ l) (le : l ≤ m.table.last)
    (plain : (m.table.info l).op ≠ .alloca) (posN : 1 ≤ n)
    (wide : width (m.table.info l) = 8 * n) (small : 8 * n < 2 ^ 16)
    (room : m.table.last + 2 * n < m.table.stackTop) :
    RoundTrips fl mem m.table ptr l ls n app ↔ StoreOk m.table l n := by
  have built : Built m.table :=
    (runAll_invariant exec_built ⟨empty_kept fl room0 le0, built_empty room0 le0⟩ meets run).2
  by_cases single : n = 1 ∧ (m.table.info l).size = 8
  · obtain ⟨rfl, size⟩ := single
    rw [roundTrips_single built mapped pos le plain wide size (by omega)]
    constructor
    · intro ok
      exact ⟨fun _ => ok, fun no => absurd ⟨rfl, size⟩ no, fun no => absurd ⟨rfl, size⟩ no⟩
    · intro ok
      exact ok.single ⟨rfl, size⟩
  · by_cases load : (m.table.info l).op = .load
    · rw [roundTrips_load built mapped pos le load wide small single room]
      constructor
      · intro ok
        exact ⟨fun no => absurd no single, fun _ _ => ok, fun _ no => absurd load no⟩
      · intro ok
        exact ok.load single load
    · rw [roundTrips_extracts built mapped pos le plain wide small single load room]
      constructor
      · intro ok
        exact ⟨fun no => absurd no single, fun _ no => absurd no load, fun _ _ => ok⟩
      · intro ok
        exact ok.extract single load

/-- An input byte extended to 16 bits is stored and loaded back. -/
theorem roundTrips_iff_extended_byte : let fl : Flags := ⟨true, true, false, true⟩
    let steps : List Step := [⟨fun _ => 0, .input 0 0⟩, ⟨fun _ => 0, .union .zext 16 ⟨1, 0, 7, 0⟩⟩]
    ∃ m, runAll fl ⟨tableOf [] 1000, fun _ => 0⟩ steps = some m ∧
      RoundTrips fl (fun _ => 0) m.table 4096 2 (fun _ => 0) 2 (fun _ => 0) := by
  intro fl steps
  have run : (runAll fl ⟨tableOf [] 1000, fun _ => 0⟩ steps).map
      (fun m => (m.table.last, m.table.stackTop, (m.table.info 2).op, (m.table.info 2).size)) =
        some (2, 1000, .zext, 16) := by decide
  obtain ⟨m, h, values⟩ := Option.map_eq_some_iff.mp run
  simp only [Prod.mk.injEq] at values
  obtain ⟨last, _, op, size⟩ := values
  have wide : width (m.table.info 2) = 8 * 2 := by simp only [width, op, size]
  refine ⟨m, h, ?_⟩
  refine (roundTrips_iff fl 1000 (by decide) (by decide) steps m ?_ h (fun _ => 0) 4096 2 2
    (fun _ => 0) (fun _ => 0) (by decide) (by decide) (by omega) (by simp [op]) (by decide) wide
    (by decide) (by omega)).mpr ?_
  · refine ⟨⟨⟨trivial, trivial⟩, trivial⟩, ?_⟩
    intro m1 first
    have labels : (exec fl (fun _ => 0) ⟨tableOf [] 1000, fun _ => 0⟩ (.input 0 0)).map
        (fun m => m.table.last) = some 1 := by decide
    rw [first] at labels
    have last1 : m1.table.last = 1 := Option.some.inj labels
    have holds : Existing m1.table 1 := .inl (by omega)
    have zext : Operator.zext ≠ .load := by decide
    exact ⟨⟨⟨⟨holds, fun _ => .inl (Nat.zero_le _)⟩, trivial⟩, zext⟩, fun _ _ => trivial⟩
  · constructor
    · rintro ⟨two, _⟩
      cases two
    · intro _ load
      rw [op] at load
      cases load
    · omega

/-- A label is taken between two input bytes, so the word of the two bytes is
stored as the first byte and that label. -/
theorem unionStore_interleaved_label : let fl : Flags := ⟨true, true, false, true⟩
    let start : Machine := ⟨tableOf [] 1000, fun _ => 0⟩
    let steps : List Step :=
      [⟨fun _ => 0, .input 0 0⟩, ⟨fun _ => 0, .union .add 8 ⟨1, 0, 0, 5⟩⟩,
        ⟨fun _ => 0, .input 1 1⟩, ⟨fun _ => 0, .load 4096 0 2 (fun _ => 0)⟩]
    Throughout fl (fun m c => Meets fl m c ∧ Builds c) start steps ∧
      ∃ m, runAll fl start steps = some m ∧ m.table.last = 4 ∧ width (m.table.info 4) = 16 ∧
        ¬ RoundTrips fl (fun _ => 0) m.table 4096 4 (fun _ => 0) 2 (fun _ => 0) := by
  intro fl start steps
  have plain : Operator.add ≠ .load := by decide
  constructor
  · refine ⟨⟨⟨trivial, trivial⟩, trivial⟩, fun m1 first => ⟨⟨⟨⟨?_, ?_⟩, trivial⟩, plain⟩,
      fun m2 second => ⟨⟨⟨trivial, trivial⟩, trivial⟩, fun m3 third =>
        ⟨⟨⟨trivial, trivial⟩, trivial⟩, fun _ _ => trivial⟩⟩⟩⟩
    · have labels : (exec fl (fun _ => 0) start (.input 0 0)).map (fun m => m.table.last) =
          some 1 := by decide
      rw [first] at labels
      exact .inl (Nat.le_of_eq (Option.some.inj labels).symm)
    · intro _
      exact .inl (Nat.zero_le _)
  · have run : (runAll fl start steps).map (fun m => (m.table.last, width (m.table.info 4),
        den m.table.info ⟨fun _ _ => 0, fun _ => 0⟩ 4)) = some (4, 16, 0) := by decide
    -- the second byte is loaded back as the label that holds the first byte plus five
    have loaded : ((runAll fl start steps).bind fun m =>
        (unionStore fl (fun _ => 0) m.table 4096 4 (fun _ => 0) 2).bind fun r =>
        (unionLoad fl (fun _ => 0) r.2 4100 (fun j => r.1 (1 + j)) (fun _ => 0) 1).map fun q =>
          den q.2.info ⟨fun _ _ => 0, fun _ => 0⟩ q.1) = some 5 := by decide
    obtain ⟨m, h, values⟩ := Option.map_eq_some_iff.mp run
    simp only [Prod.mk.injEq] at values
    obtain ⟨last, wide, zero⟩ := values
    refine ⟨m, h, last, wide, ?_⟩
    rintro ⟨ls', s', stored, trips⟩
    obtain ⟨_, _, load, _, _, _, value⟩ := trips 1 1 (by decide) (by decide)
    simp only [h, stored, Option.bind_some] at loaded
    rw [load] at loaded
    have five := Option.some.inj loaded
    simp only [value, zero] at five
    exact absurd five (by decide)

end RoundTrip
