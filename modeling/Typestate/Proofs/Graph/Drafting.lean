import Typestate.Graph.Draft
import Typestate.Proofs.Run

/-!
How the steps of drafting end. A step `Decides` a condition on what it is given if it succeeds exactly
when the condition holds and otherwise complains about something invalid, never about a node that is
unknown. The notion composes along a run, so the condition that a whole run decides is the conjunction
of what its steps decide.
-/

namespace Typestate.Drafting

/-- The step succeeds from `d` exactly if `valid`, and then with an answer and a draft in `post`;
otherwise it complains about something invalid. -/
structure Decides {α : Type} (step : Drafting α) (d : Draft) (valid : Prop)
    (post : α → Draft → Prop) : Prop where
  of_ok : ∀ a d', step d = .ok a d' → valid ∧ post a d'
  of_error : ∀ fault d', step d = .error fault d' → ¬ valid ∧ ∃ cause span, fault = .invalid cause span

variable {α β : Type} {step : Drafting α} {d : Draft} {valid valid' : Prop}
  {post post' : α → Draft → Prop}

theorem decides_of_eq_ok {a : α} {d' : Draft} (hs : step d = .ok a d') (hv : valid)
    (hp : post a d') : Decides step d valid post where
  of_ok a₁ d₁ h := by
    rw [hs] at h
    cases h
    exact ⟨hv, hp⟩
  of_error fault d₁ h := by
    rw [hs] at h
    cases h

theorem decides_of_eq_invalid {cause : ValidationCause} {span : Option Span} {d' : Draft}
    (hs : step d = .error (.invalid cause span) d') (hv : ¬ valid) : Decides step d valid post where
  of_ok a d₁ h := by
    rw [hs] at h
    cases h
  of_error fault d₁ h := by
    rw [hs] at h
    cases h
    exact ⟨hv, cause, span, rfl⟩

theorem Decides.congr (h : Decides step d valid post) (hv : valid ↔ valid') :
    Decides step d valid' post := by
  rwa [← propext hv]

/-- What a step decides is decided by the run that it goes on with. -/
theorem Decides.of_run_eq {step' : Drafting α} {d' : Draft} (h : Decides step' d' valid post)
    (hs : step d = step' d') : Decides step d valid post where
  of_ok a d₁ h₁ := h.of_ok a d₁ (hs ▸ h₁)
  of_error fault d₁ h₁ := h.of_error fault d₁ (hs ▸ h₁)

theorem Decides.weaken (h : Decides step d valid post)
    (hp : valid → ∀ a d', post a d' → post' a d') : Decides step d valid post' where
  of_ok a d' hs :=
    have hr := h.of_ok a d' hs
    ⟨hr.1, hp hr.1 a d' hr.2⟩
  of_error := h.of_error

/-- **Sequencing.** Two steps are valid one after the other if and only if the first is and the second is behind it.
-/
theorem Decides.bind {next : α → Drafting β} {post' : β → Draft → Prop}
    (h : Decides step d valid post)
    (hn : valid → ∀ a d', post a d' → Decides (next a) d' valid' post') :
    Decides (step >>= next) d (valid ∧ valid') post' where
  of_ok b d₂ hs := by
    obtain ⟨a, d₁, h₁, h₂⟩ := Run.bind_eq_ok_iff.mp hs
    obtain ⟨hv, hp⟩ := h.of_ok a d₁ h₁
    obtain ⟨hv', hp'⟩ := (hn hv a d₁ hp).of_ok b d₂ h₂
    exact ⟨⟨hv, hv'⟩, hp'⟩
  of_error fault d₂ hs := by
    rcases Run.bind_eq_error_iff.mp hs with h₁ | ⟨a, d₁, h₁, h₂⟩
    · obtain ⟨hv, hf⟩ := h.of_error fault d₂ h₁
      exact ⟨fun hb => hv hb.1, hf⟩
    · obtain ⟨hv, hp⟩ := h.of_ok a d₁ h₁
      obtain ⟨hv', hf⟩ := (hn hv a d₁ hp).of_error fault d₂ h₂
      exact ⟨fun hb => hv' hb.2, hf⟩

end Typestate.Drafting
