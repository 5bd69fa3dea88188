import Typestate.Code.Generate
import Typestate.Proofs.Run

/-!
Two runs that note events, one beside the other. `Tally` says that both come to results, which are in some
relation, or both fail, and the failures are in another; `Alike` that both fail in the same way. There is a
rule for each way of making runs from others, and a machine is loaded in the same way whatever was noted
(`steady_load`).
-/

namespace Typestate

namespace Logged

/-- Whatever was noted before, the run comes to a result in `post`. -/
def Yields {α : Type} (run : Logged α) (post : α → Prop) : Prop :=
  ∀ events, ∃ a events', run events = .ok a events' ∧ post a

/-- Whatever was noted before them, both runs come to results, which are related, or both fail in the
same way. -/
def Alike {α β : Type} (x : Logged α) (y : Logged β) (related : α → β → Prop) : Prop :=
  ∀ events events', match x events, y events' with
    | .ok a _, .ok b _ => related a b
    | .error f _, .error f' _ => f = f'
    | _, _ => False

/-- Whatever was noted before them, both runs come to results, or both fail; the results are in one relation
and the failures in another. -/
def Tally {α β : Type} (failing : Failure → Failure → Prop) (x : Logged α) (y : Logged β)
    (related : α → β → Prop) : Prop :=
  ∀ events events', match x events, y events' with
    | .ok a _, .ok b _ => related a b
    | .error f _, .error f' _ => failing f f'
    | _, _ => False

/-- The result of the run does not tell what was noted before. -/
def Steady {α : Type} (x : Logged α) : Prop := Alike x x Eq

variable {α β γ δ : Type} {failing : Failure → Failure → Prop} {x : Logged α} {y : Logged β}
  {related related' : α → β → Prop}

/-! ## Rules -/

theorem tally_pure {a : α} {b : β} (h : related a b) : Tally failing (pure a) (pure b) related :=
  fun _ _ => h

/-- **Sequencing.** What follows may use that the second run comes to its result. -/
theorem Tally.bind_of_ok {next : α → Logged γ} {next' : β → Logged δ} {post : γ → δ → Prop}
    (h : Tally failing x y related)
    (hn : ∀ a b, related a b → (∃ events events', y events = .ok b events') →
      Tally failing (next a) (next' b) post) : Tally failing (x >>= next) (y >>= next') post := by
  intro events events'
  have hboth := h events events'
  have hx : (x >>= next) events = EStateM.bind x next events := rfl
  have hy : (y >>= next') events' = EStateM.bind y next' events' := rfl
  rw [hx, hy, EStateM.bind, EStateM.bind]
  cases hrun : x events <;> cases hrun' : y events' <;> rw [hrun, hrun'] at hboth
  · exact hn _ _ hboth ⟨events', _, hrun'⟩ _ _
  · exact hboth.elim
  · exact hboth.elim
  · exact hboth

theorem Tally.bind {next : α → Logged γ} {next' : β → Logged δ} {post : γ → δ → Prop}
    (h : Tally failing x y related) (hn : ∀ a b, related a b → Tally failing (next a) (next' b) post) :
    Tally failing (x >>= next) (y >>= next') post := h.bind_of_ok fun a b hab _ => hn a b hab

/-- If the second of two runs that tally comes to a result that passes a check, the first comes to a result too. -/
theorem Tally.exists_of_check (h : Tally failing x y related) {p : β → Bool}
    (hcheck : y.outcome.1.toOption.any p = true) :
    ∃ a noted b noted', x [] = .ok a noted ∧ y [] = .ok b noted' ∧ related a b ∧ p b = true := by
  have hboth := h [] []
  unfold outcome at hcheck
  cases hy : y [] <;> rw [hy] at hcheck hboth
  · cases hx : x [] <;> rw [hx] at hboth
    · exact ⟨_, _, _, _, rfl, rfl, hboth, hcheck⟩
    · exact hboth.elim
  · cases hcheck

/-- Runs are alike if they tally and fail in the same way. -/
theorem alike_iff_tally : Alike x y related ↔ Tally Eq x y related := Iff.rfl

/-- Runs that are alike tally. -/
theorem Alike.tally (h : Alike x y related) (hrefl : ∀ f, failing f f) : Tally failing x y related := by
  intro events events'
  have hboth := h events events'
  cases hrun : x events <;> cases hrun' : y events' <;> rw [hrun, hrun'] at hboth
  · exact hboth
  · exact hboth.elim
  · exact hboth.elim
  · obtain rfl : _ = _ := hboth
    exact hrefl _

theorem alike_pure {a : α} {b : β} (h : related a b) : Alike (pure a) (pure b) related := fun _ _ => h

theorem Alike.weaken (h : Alike x y related) (hr : ∀ a b, related a b → related' a b) :
    Alike x y related' := by
  intro events events'
  have hboth := h events events'
  split at hboth
  · exact hr _ _ hboth
  · exact hboth
  · exact hboth.elim

theorem Alike.bind_of_ok {next : α → Logged γ} {next' : β → Logged δ} {post : γ → δ → Prop}
    (h : Alike x y related)
    (hn : ∀ a b, related a b → (∃ events events', y events = .ok b events') →
      Alike (next a) (next' b) post) : Alike (x >>= next) (y >>= next') post :=
  alike_iff_tally.mpr ((alike_iff_tally.mp h).bind_of_ok fun a b hab hok => alike_iff_tally.mp (hn a b hab hok))

theorem Alike.bind {next : α → Logged γ} {next' : β → Logged δ} {post : γ → δ → Prop}
    (h : Alike x y related) (hn : ∀ a b, related a b → Alike (next a) (next' b) post) :
    Alike (x >>= next) (y >>= next') post := h.bind_of_ok fun a b hab _ => hn a b hab

theorem Alike.trans {z : Logged γ} {post : β → γ → Prop} (h : Alike x y related)
    (h' : Alike y z post) : Alike x z fun a c => ∃ b, related a b ∧ post b c := by
  intro events events'
  have hfirst := h events []
  have hsecond := h' [] events'
  cases hx : x events <;> cases hy : y [] <;> cases hz : z events' <;>
    rw [hx, hy] at hfirst <;> rw [hy, hz] at hsecond
  · exact ⟨_, hfirst, hsecond⟩
  · exact hsecond
  · exact hfirst.elim
  · exact hfirst.elim
  · exact hfirst.elim
  · exact hfirst.elim
  · exact hsecond
  · exact hfirst.trans hsecond

/-- Runs that come to results are alike. -/
theorem Yields.alike {p : α → Prop} {q : β → Prop} (hx : x.Yields p) (hy : y.Yields q) :
    Alike x y fun a b => p a ∧ q b := by
  intro events events'
  obtain ⟨a, _, hrun, ha⟩ := hx events
  obtain ⟨b, _, hrun', hb⟩ := hy events'
  rw [hrun, hrun']
  exact ⟨ha, hb⟩

theorem yields_pure {a : α} {post : α → Prop} (h : post a) : Yields (pure a) post :=
  fun events => ⟨a, events, rfl, h⟩

theorem Yields.bind {next : α → Logged β} {p : α → Prop} {q : β → Prop} (h : x.Yields p)
    (hn : ∀ a, p a → (next a).Yields q) : (x >>= next).Yields q := by
  intro events
  obtain ⟨a, noted, hrun, ha⟩ := h events
  obtain ⟨b, noted', hrun', hb⟩ := hn a ha noted
  exact ⟨b, noted', Run.bind_eq_ok_iff.mpr ⟨a, noted, hrun, hrun'⟩, hb⟩

theorem Yields.ne_error {post : α → Prop} (h : x.Yields post) {events events' : List Event} {f : Failure} :
    x events ≠ .error f events' := by
  obtain ⟨a, noted, hrun, -⟩ := h events
  rw [hrun]
  exact nofun

theorem steady_pure (a : α) : Steady (pure a : Logged α) := alike_pure rfl

theorem Steady.bind {next : α → Logged γ} (h : Steady x) (hn : ∀ a, Steady (next a)) :
    Steady (x >>= next) := Alike.bind h fun a _ hab => hab ▸ hn a

theorem steady_ofExcept (e : Except Failure α) : Steady (ofExcept e) := by
  intro events events'
  cases e <;> rfl

theorem yields_note (event : Event) : (note event).Yields fun _ => True :=
  fun _ => ⟨(), _, rfl, trivial⟩

theorem yields_notes {ι : Type} (l : List ι) (event : ι → Event) :
    (l.forM fun i => note (event i)).Yields fun _ => True := by
  induction l with
  | nil => exact yields_pure trivial
  | cons i l ih => exact (yields_note (event i)).bind fun _ _ => ih

theorem steady_note (event : Event) : Steady (note event) := fun _ _ => rfl

theorem steady_notes {ι : Type} (l : List ι) (event : ι → Event) :
    Steady (l.forM fun i => note (event i)) := by
  induction l with
  | nil => exact steady_pure ()
  | cons i l ih => exact (steady_note (event i)).bind fun _ => ih

end Logged

open Logged

/-! ## Loading -/

theorem steady_read (src : Source) (language : Language) : Steady (src.read language) := by
  cases language <;>
    exact (steady_ofExcept _).bind fun _ => (steady_note _).bind fun _ => steady_pure _

theorem yields_overrides (o : Overrides) (d : Document) : (o.run d).Yields (· = o.apply d) := by
  unfold Overrides.run
  split
  · exact (yields_note _).bind fun _ _ => yields_pure rfl
  · exact yields_pure rfl

theorem steady_buildGraph (d : Document) (file : Option Path) (text : Option String) :
    Steady (d.buildGraph file text) := by
  unfold Document.buildGraph
  cases d.draft <;>
    exact (steady_notes _ _).bind fun _ => (steady_ofExcept _).bind fun _ =>
      (steady_note _).bind fun _ => steady_pure _

theorem steady_load (src : Source) (language : Language) (o : Overrides) :
    Steady (Machine.load src language o) := by
  refine (steady_read src language).bind fun d => Steady.bind ?_ fun d' => ?_
  · refine ((yields_overrides o d).alike (yields_overrides o d)).weaken ?_
    rintro _ _ ⟨rfl, rfl⟩
    rfl
  · exact (steady_buildGraph d' _ _).bind fun _ => steady_pure _

end Typestate
