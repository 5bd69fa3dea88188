import Typestate.Failure

/-!
Reading tokens: the stream of those still ahead, and readers that take tokens off its front or
complain about one of them. A complaint leaves the stream where reading stopped.
-/

namespace Typestate

namespace Token

/-- The place of a token. -/
def span (t : Token) : Span := ⟨t.line, t.column, t.length⟩

/-- The place from a token to a later one; if they stand on different lines, that of the first. -/
def spanTo (first last : Token) : Span :=
  if last.line = first.line then ⟨first.line, first.column, max 1 (last.stop - first.start)⟩
  else first.span

end Token

/-- The tokens still to be read, and the mark of the end behind them. -/
structure TokenStream where
  ahead : List Token
  last : Token
  deriving DecidableEq, Repr

namespace TokenStream

/-- The stream of a list of tokens, the last of which marks the end. -/
def ofTokens (tokens : List Token) : TokenStream :=
  { ahead := tokens.dropLast
    last := tokens.getLast?.getD { kind := .endOfInput, value := "", line := 1, column := 1 } }

/-- The token some way ahead, which past the end is the mark of the end. -/
def peek (s : TokenStream) (n : Nat) : Token := s.ahead[n]?.getD s.last

def current (s : TokenStream) : Token := s.peek 0

end TokenStream

/-- A reader of tokens of a source. -/
abbrev Parser := ReaderT Source (EStateM ParseError TokenStream)

namespace Parser

/-- The complaint about a token. -/
def complaint (src : Source) (t : Token) (cause : ParseCause) : ParseError :=
  ⟨cause, some (src.context t.span)⟩

def fail {α : Type} (t : Token) (cause : ParseCause) : Parser α := do
  throw (complaint (← read) t cause)

def current : Parser Token := return (← get).current

def peek (n : Nat := 1) : Parser Token := return (← get).peek n

/-- Take a token. The mark of the end is never passed. -/
def advance : Parser Token := do
  let s ← get
  match s.ahead with
  | [] => return s.last
  | t :: rest =>
    set { s with ahead := rest }
    return t

/-- The next token is of this kind. -/
def isAt (k : TokenKind) : Parser Bool := return (← current).kind == k

/-- Take a token of this kind. -/
def expect (k : TokenKind) : Parser Token := do
  let t ← current
  if t.kind = k then advance else fail t (.expected (.kind k) t)

/-- Take an identifier or a keyword. -/
def expectName : Parser Token := do
  let t ← current
  if t.kind.isName then advance else fail t (.expected (.kind .identifier) t)

/-- The result of one round of a repetition: another round follows, or none does. -/
inductive Round (β : Type) where
  | again (acc : β)
  | done (acc : β)

/-- Rounds from a stream on, each starting with the result of the one before. A round that is
followed by another has to take a token. One that took none would be repeated for ever, which is an
ending of its own. -/
def roundsFrom {β : Type} (round : β → Parser (Round β)) (src : Source) (acc : β)
    (s : TokenStream) : EStateM.Result ParseError TokenStream β :=
  match round acc src s with
  | .error e s' => .error e s'
  | .ok (.done acc') s' => .ok acc' s'
  | .ok (.again acc') s' =>
    if s'.ahead.length < s.ahead.length then roundsFrom round src acc' s'
    else .error ⟨.stalled, none⟩ s'
termination_by s.ahead.length

/-- Repeat a round until it says that it was the last. -/
def rounds {β : Type} (round : β → Parser (Round β)) (acc : β) : Parser β := fun src s =>
  roundsFrom round src acc s

end Parser

end Typestate
