import Mathlib.Logic.Basic
import Mathlib.Tactic.TypeStar

/-! # Runs of a deterministic event-driven system

A system has initial states, events a state allows, and a step that may fail
to return. Invariants are proved once on the initial states and on one step.
The same one-step facts decide along which runs a property never fails.
-/

namespace ShadOS.Machine

universe u v

structure System (σ : Type u) (ε : Type v) where
  init : σ → Prop
  allowed : σ → ε → Prop
  step : σ → ε → Option σ

namespace System
variable {σ : Type u} {ε : Type v} (S : System σ ε)

inductive Reaches : σ → Prop
  | start {s : σ} (h : S.init s) : Reaches s
  | step {s s' : σ} {e : ε} (h : Reaches s) (ha : S.allowed s e) (hs : S.step s e = some s') :
      Reaches s'

/-- All events are allowed in turn and their steps return. -/
def Executes : σ → List ε → Prop
  | _, [] => True
  | s, e :: es => S.allowed s e ∧ ∃ s', S.step s e = some s' ∧ Executes s' es

/-- `P` holds in `s` and in every state met while executing the events. -/
def Always (P : σ → Prop) : σ → List ε → Prop
  | s, [] => P s
  | s, e :: es => P s ∧ ∀ s', S.step s e = some s' → Always P s' es

/-- Every step made while executing the events meets `C`. -/
def EachStep (C : σ → ε → Prop) : σ → List ε → Prop
  | _, [] => True
  | s, e :: es => C s e ∧ ∀ s', S.step s e = some s' → EachStep C s' es

/-- The state after executing the events, when every step returns. -/
def exec : σ → List ε → Option σ
  | s, [] => some s
  | s, e :: es => (S.step s e).bind (fun s' => exec s' es)

/-- What `f` shows after each event, when every step returns. -/
def trace {β : Type*} (f : σ → β) : σ → List ε → Option (List β)
  | _, [] => some []
  | s, e :: es => (S.step s e).bind (fun s' => (trace f s' es).map (f s' :: ·))

variable {S} {P : σ → Prop} {C : σ → ε → Prop}

theorem Reaches.invariant {s : σ} (h : S.Reaches s) (hinit : ∀ s, S.init s → P s)
    (hstep : ∀ s e s', P s → S.allowed s e → S.step s e = some s' → P s') : P s := by
  induction h with
  | start h => exact hinit _ h
  | step _ ha hs ih => exact hstep _ _ _ ih ha hs

/-- What every step of a kind keeps, a run of such steps keeps. -/
theorem Executes.invariant {R : ε → Prop} {s t : σ} {es : List ε} (he : S.Executes s es)
    (ht : S.exec s es = some t) (hR : ∀ e ∈ es, R e) (hP : P s)
    (hstep : ∀ s e s', P s → R e → S.allowed s e → S.step s e = some s' → P s') : P t := by
  induction es generalizing s with
  | nil => exact Option.some.inj ht ▸ hP
  | cons e es ih =>
    obtain ⟨ha, s', hs, hes⟩ := he
    rw [exec, hs] at ht
    apply ih hes ht
    · exact fun e he => hR e (List.mem_cons_of_mem _ he)
    · exact hstep s e s' hP (hR e List.mem_cons_self) ha hs

/-- What every step that meets `C` keeps, a run of such steps keeps. -/
theorem Executes.invariant_of_eachStep {s t : σ} {es : List ε} (he : S.Executes s es)
    (ht : S.exec s es = some t) (hC : S.EachStep C s es) (hP : P s)
    (hstep : ∀ s e s', P s → C s e → S.allowed s e → S.step s e = some s' → P s') : P t := by
  induction es generalizing s with
  | nil => exact Option.some.inj ht ▸ hP
  | cons e es ih =>
    obtain ⟨ha, s', hs, hes⟩ := he
    rw [exec, hs] at ht
    exact ih hes ht (hC.2 s' hs) (hstep s e s' hP hC.1 ha hs)

theorem Reaches.exec {s t : σ} {es : List ε} (h : S.Reaches s) (he : S.Executes s es)
    (ht : S.exec s es = some t) : S.Reaches t :=
  he.invariant (R := fun _ => True) ht (fun _ _ => trivial) h (fun _ _ _ h _ ha hs => h.step ha hs)

/-- An invariant that implies `P` keeps a run from failing it. -/
theorem Executes.always {I : σ → Prop} {s : σ} {es : List ε} (he : S.Executes s es) (hI : I s)
    (hP : ∀ s, I s → P s)
    (hstep : ∀ s e s', I s → S.allowed s e → S.step s e = some s' → I s') : S.Always P s es := by
  induction es generalizing s with
  | nil => exact hP s hI
  | cons e es ih =>
    obtain ⟨ha, s', hs, hes⟩ := he
    refine ⟨hP s hI, fun t ht => ?_⟩
    obtain rfl : s' = t := Option.some.inj (hs.symm.trans ht)
    exact ih hes (hstep s e s' hI ha hs)

/-- Where steps that meet `C` keep an invariant implying `P`, a run of such steps never
fails `P`. -/
theorem always_of_eachStep {I : σ → Prop} (hP : ∀ s, I s → P s)
    (hgood : ∀ s e s', I s → S.allowed s e → C s e → S.step s e = some s' → I s')
    {s : σ} {es : List ε} (hI : I s) (he : S.Executes s es) (hC : S.EachStep C s es) :
    S.Always P s es := by
  induction es generalizing s with
  | nil => exact hP s hI
  | cons e es ih =>
    obtain ⟨ha, s', hs, hes⟩ := he
    refine ⟨hP s hI, fun t ht => ?_⟩
    obtain rfl : s' = t := Option.some.inj (hs.symm.trans ht)
    exact ih (hgood s e s' hI ha hC.1 hs) hes (hC.2 s' hs)

/-- Where steps that meet `C` keep an invariant implying `P`, and any other
step breaks `P`, the runs on which `P` never fails are those whose steps all
meet `C`. -/
theorem always_iff_eachStep {I : σ → Prop} (hP : ∀ s, I s → P s)
    (hgood : ∀ s e s', I s → S.allowed s e → C s e → S.step s e = some s' → I s')
    (hbad : ∀ s e s', I s → S.allowed s e → ¬ C s e → S.step s e = some s' → ¬ P s')
    {s : σ} {es : List ε} (hI : I s) (he : S.Executes s es) :
    S.Always P s es ↔ S.EachStep C s es := by
  induction es generalizing s with
  | nil => exact ⟨fun _ => trivial, fun _ => hP s hI⟩
  | cons e es ih =>
    obtain ⟨ha, s', hs, hes⟩ := he
    have hone {Q : σ → Prop} : (∀ t, S.step s e = some t → Q t) ↔ Q s' := by
      rw [hs]
      exact ⟨fun h => h s' rfl, fun h t ht => Option.some.inj ht ▸ h⟩
    simp only [Always, EachStep, hone]
    by_cases hC : C s e
    · simp only [hP s hI, hC, true_and]
      exact ih (hgood s e s' hI ha hC hs) hes
    · refine ⟨fun h => absurd h.2 (fun hA => hbad s e s' hI ha hC hs ?_), fun h => absurd h.1 hC⟩
      cases es with
      | nil => exact hA
      | cons => exact hA.1

end System
end ShadOS.Machine
