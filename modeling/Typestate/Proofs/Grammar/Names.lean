import Typestate.Proofs.Grammar.Origin
import Typestate.Proofs.Token.Words

/-!
The names in a machine. Every name of a node is the canonical spelling of an identifier among the tokens,
and every name of an arrow is a token that may be one (`Source.parse_names`).
-/

namespace Typestate

variable (node method : String → Prop)

/-- The name of the arrow, if it has one, is in `method`. -/
def Arrow.NamedBy (a : Arrow) : Prop := ∀ name, a.method? = some name → method name

/-- The names of nodes are in `node`, those of arrows in `method`. -/
def Statement.NamedBy : Statement → Prop
  | .node r => node r.name
  | .chain c => (∀ r ∈ c.nodeRefs, node r.name) ∧ ∀ step ∈ c.rest, step.1.NamedBy method

variable {node method}

instance [DecidablePred method] (a : Arrow) : Decidable (a.NamedBy method) :=
  inferInstanceAs (Decidable (∀ name ∈ a.method?, method name))

instance [DecidablePred node] [DecidablePred method] : (s : Statement) → Decidable (s.NamedBy node method)
  | .node r => inferInstanceAs (Decidable (node r.name))
  | .chain c => inferInstanceAs
    (Decidable ((∀ r ∈ c.nodeRefs, node r.name) ∧ ∀ step ∈ c.rest, step.1.NamedBy method))

theorem Statement.NamedBy.imp {node' method' : String → Prop} {s : Statement} (h : s.NamedBy node method)
    (hnode : ∀ name, node name → node' name) (hmethod : ∀ name, method name → method' name) :
    s.NamedBy node' method' := by
  cases s with
  | node r => exact hnode _ h
  | chain c =>
    exact ⟨fun r hr => hnode _ (h.1 r hr), fun step hstep name hname =>
      hmethod _ (h.2 step hstep name hname)⟩

theorem Statement.NamedBy.and {node' method' : String → Prop} {s : Statement} (h : s.NamedBy node method)
    (h' : s.NamedBy node' method') :
    s.NamedBy (fun name => node name ∧ node' name) fun name => method name ∧ method' name := by
  cases s with
  | node r => exact ⟨h, h'⟩
  | chain c =>
    exact ⟨fun r hr => ⟨h.1 r hr, h'.1 r hr⟩, fun step hstep name hname =>
      ⟨h.2 step hstep name hname, h'.2 step hstep name hname⟩⟩

/-- **Names.** If every identifier, made canonical, is a name of one kind and every name token is of another, then all
nodes in what is read have names of the first kind and all arrows of the second. -/
theorem Source.parse_names {src : Source} {tokens : List Token} {d : Document}
    (htokens : src.tokenize = .ok tokens) (h : src.parse = .ok d)
    (hnode : ∀ t ∈ tokens, t.kind = .identifier →
      ∀ name, Identifier.canonical t.value = .ok name → node name)
    (hmethod : ∀ t ∈ tokens, t.kind.isName = true → method t.value) :
    ∀ s ∈ d.statements, s.NamedBy node method := by
  have href : ∀ r : NodeRef, r.MadeBy (· ∈ tokens) → node r.name := by
    rintro r ⟨t, ht, hkind, hname, -⟩
    exact hnode t ht hkind r.name hname
  have harrow : ∀ a : Arrow, a.MadeBy (· ∈ tokens) → a.NamedBy method := by
    intro a ha name hname
    obtain ⟨docs, hform⟩ : ∃ docs, a.form = .named name docs := by
      unfold Arrow.method? at hname
      split at hname <;> cases hname
      exact ⟨_, ‹_›⟩
    obtain ⟨t, ht, hkind, rfl⟩ := ha.form name docs hform
    exact hmethod t ht hkind
  intro s hs
  have hmade := (parse_madeBy htokens h).statements s hs
  cases s with
  | node r => exact href r hmade
  | chain c =>
    obtain ⟨hrefs, harrows⟩ := hmade
    exact ⟨fun r hr => href r (hrefs r hr), fun step hstep => harrow step.1 (harrows step hstep)⟩

/-- All names in a machine are words, raw or not. -/
theorem Source.parse_wordNames {src : Source} {d : Document} (h : src.parse = .ok d) :
    ∀ s ∈ d.statements, s.NamedBy Identifier.IsName Identifier.IsName := by
  cases htokens : src.tokenize with
  | error e =>
    rw [parse, htokens] at h
    cases h
  | ok tokens =>
    have hnames := tokenize_names htokens
    have hidentifier : TokenKind.isName .identifier = true := rfl
    refine parse_names htokens h (fun t ht hkind name hname => ?_) hnames
    exact Identifier.isName_canonical (hnames t ht (hkind ▸ hidentifier)) hname

theorem Source.parse_words {src : Source} {d : Document} (h : src.parse = .ok d) :
    ∀ s ∈ d.statements, s.NamedBy Identifier.IsWord Identifier.IsWord := fun s hs =>
  (parse_wordNames h s hs).imp (fun _ => Identifier.IsName.isWord) fun _ => Identifier.IsName.isWord

end Typestate
