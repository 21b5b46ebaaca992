import Mathlib.Data.List.Basic

/-!
# Monitors of action traces

A component takes calls one at a time and performs actions. A monitor follows
the actions and says of each whether it is in order at the point where it
happens. A protocol follows the calls instead and says which of them may be
made. If a relation between component, protocol and monitor makes "in order"
and "allowed" agree call by call, and is kept by the allowed calls, the
traces in order are exactly those of the runs that obey the protocol.
-/

namespace TraceMonitor

variable {α σ κ φ ι : Type}

structure Monitor (α σ : Type) where
  update : σ → α → σ
  Ok : σ → α → Prop

namespace Monitor

def after (w : Monitor α σ) (s : σ) (trace : List α) : σ := trace.foldl w.update s

def Accepts (w : Monitor α σ) : σ → List α → Prop
  | _, [] => True
  | s, a :: rest => w.Ok s a ∧ w.Accepts (w.update s a) rest

variable {w : Monitor α σ} (s : σ)

@[simp] lemma after_nil : w.after s [] = s := rfl

@[simp] lemma after_cons (a : α) (trace : List α) :
    w.after s (a :: trace) = w.after (w.update s a) trace := rfl

variable (first second : List α)

@[simp] lemma after_append : w.after s (first ++ second) = w.after (w.after s first) second :=
  List.foldl_append

@[simp] lemma accepts_nil : w.Accepts s [] := trivial

@[simp] lemma accepts_cons (a : α) (trace : List α) :
    w.Accepts s (a :: trace) ↔ w.Ok s a ∧ w.Accepts (w.update s a) trace := .rfl

@[simp] lemma accepts_append :
    w.Accepts s (first ++ second) ↔ w.Accepts s first ∧ w.Accepts (w.after s first) second := by
  induction first generalizing s with
  | nil => simp
  | cons a first ih => simp only [List.cons_append, accepts_cons, after_cons, ih, and_assoc]

lemma accepts_iff (trace : List α) :
    w.Accepts s trace ↔
      ∀ before a rest, trace = before ++ a :: rest → w.Ok (w.after s before) a := by
  constructor
  · rintro accepted before a rest rfl
    exact ((accepts_append _ _ _).mp accepted).2.1
  intro each
  induction trace generalizing s with
  | nil => trivial
  | cons a trace ih =>
    refine ⟨each [] a trace rfl, ih _ ?_⟩
    intro before b rest split
    exact each (a :: before) b rest (by rw [split]; rfl)

end Monitor

def traceOf (step : κ → ι → κ × List α) : κ → List ι → List α
  | _, [] => []
  | k, i :: calls => (step k i).2 ++ traceOf step (step k i).1 calls

/-- Each call is allowed in the phase in which it is made. -/
def Obeys (next : φ → ι → φ) (Allowed : φ → ι → Prop) : φ → List ι → Prop
  | _, [] => True
  | p, i :: calls => Allowed p i ∧ Obeys next Allowed (next p i) calls

/-- Calls are allowed exactly where their actions are in order, as long as the
relation holds, and allowed calls keep it. -/
structure Simulates (w : Monitor α σ) (step : κ → ι → κ × List α) (next : φ → ι → φ)
    (Allowed : φ → ι → Prop) (R : κ → φ → σ → Prop) : Prop where
  exact : ∀ k p s i, R k p s → (w.Accepts s (step k i).2 ↔ Allowed p i)
  kept : ∀ k p s i, R k p s → Allowed p i → R (step k i).1 (next p i) (w.after s (step k i).2)

lemma Simulates.accepts_iff {w : Monitor α σ} {step : κ → ι → κ × List α} {next : φ → ι → φ}
    {Allowed : φ → ι → Prop} {R : κ → φ → σ → Prop} (sim : Simulates w step next Allowed R) {k : κ}
    {p : φ} {s : σ} (related : R k p s) (calls : List ι) :
    w.Accepts s (traceOf step k calls) ↔ Obeys next Allowed p calls := by
  induction calls generalizing k p s with
  | nil => exact .rfl
  | cons i calls ih =>
    have here := sim.exact k p s i related
    simp only [traceOf, Monitor.accepts_append]
    constructor
    · rintro ⟨first, rest⟩
      have allowed := here.mp first
      exact ⟨allowed, (ih (sim.kept k p s i related allowed)).mp rest⟩
    · rintro ⟨allowed, rest⟩
      exact ⟨here.mpr allowed, (ih (sim.kept k p s i related allowed)).mpr rest⟩

end TraceMonitor
