import Mathlib.Tactic.Common

/-! Runs of a labelled transition system in which only some steps are allowed. An invariant of the
    allowed steps holds at every state that a run reaches, and a run that obeys a stricter rule obeys
    every weaker one. -/

namespace Lib

variable {σ α : Type}

/-- States reached from `init` by steps that `ok` allows. -/
inductive Reaches (next : σ → α → σ → Prop) (ok : σ → α → Prop) (init : σ) : σ → Prop where
  | init : Reaches next ok init init
  | step {s s' : σ} {l : α} (run : Reaches next ok init s) (allowed : ok s l) (move : next s l s') :
      Reaches next ok init s'

namespace Reaches
variable {next : σ → α → σ → Prop} {ok ok' : σ → α → Prop} {init s : σ}

/-- What holds at the start and is kept by every allowed step holds throughout. -/
theorem invariant {P : σ → Prop} (h0 : P init)
    (hstep : ∀ s l s', Reaches next ok init s → P s → ok s l → next s l s' → P s')
    (h : Reaches next ok init s) : P s := by
  induction h with
  | init => exact h0
  | step run allowed move ih => exact hstep _ _ _ run ih allowed move

/-- A run may go on where another one ended. -/
theorem trans {t : σ} (h : Reaches next ok init s) (h' : Reaches next ok s t) :
    Reaches next ok init t :=
  h'.invariant h fun _ _ _ _ hrun allowed move => hrun.step allowed move

theorem mono (hok : ∀ s l, ok s l → ok' s l) (h : Reaches next ok init s) :
    Reaches next ok' init s := by
  induction h with
  | init => exact .init
  | step _ allowed move ih => exact .step ih (hok _ _ allowed) move

/-- It is enough that the states reached obey the other rule. -/
theorem mono_of_reaches (hok : ∀ s l, Reaches next ok init s → ok s l → ok' s l)
    (h : Reaches next ok init s) : Reaches next ok' init s := by
  induction h with
  | init => exact .init
  | step run allowed move ih => exact .step ih (hok _ _ run allowed) move

section
variable {ε : Type} (run : σ → α → Except ε σ) (allow : σ → α → Prop)
  [∀ s l, Decidable (allow s l)]

/-- Compute a run from the list of its labels. -/
def follow (s : σ) : List α → Option σ
  | [] => some s
  | l :: rest =>
    if allow s l then
      match run s l with
      | .ok s' => follow s' rest
      | .error _ => none
    else none

variable {run allow} in
theorem of_follow {ls : List α} (h : Reaches (fun s l s' => run s l = .ok s') allow init s)
    {s' : σ} (hf : follow run allow s ls = some s') :
    Reaches (fun s l s' => run s l = .ok s') allow init s' := by
  induction ls generalizing s with
  | nil =>
    rw [follow, Option.some.injEq] at hf
    exact hf ▸ h
  | cons l rest ih =>
    rw [follow] at hf
    split_ifs at hf with hl
    cases hs : run s l with
    | ok s₁ =>
      rw [hs] at hf
      exact ih (.step h hl hs) hf
    | error =>
      rw [hs] at hf
      cases hf

end

end Reaches
end Lib
