import Reckon.Alphabet

/-!
  Tokens: what kind each is, the text it holds and the character it starts at. A kind has two
  names, the label that a token listing shows and the phrase that a diagnostic uses for a token
  it wanted; a token that was found is described by its own text.
-/

namespace Reckon

namespace Token

/-- The kinds of token; `ending` stands for the end of the text and holds no character. -/
inductive Kind where
  | identifier
  | number
  | plus
  | minus
  | times
  | slash
  | equals
  | leftParen
  | rightParen
  | semicolon
  | ending
  deriving DecidableEq, Repr

namespace Kind

/-- All kinds, in the order of their declaration. -/
def all : List Kind :=
  [identifier, number, plus, minus, times, slash, equals, leftParen, rightParen, semicolon,
    ending]

/-- The name of a kind in a token listing. -/
def label : Kind → String
  | identifier => "Identifier"
  | number => "Number"
  | plus => "Plus"
  | minus => "Minus"
  | times => "Multiply"
  | slash => "Divide"
  | equals => "Assign"
  | leftParen => "LParen"
  | rightParen => "RParen"
  | semicolon => "Semicolon"
  | ending => "End"

/-- The words with which a diagnostic asks for a token of this kind. -/
def phrase : Kind → String
  | identifier => "identifier"
  | number => "number"
  | plus => "`+`"
  | minus => "`-`"
  | times => "`*`"
  | slash => "`/`"
  | equals => "`=`"
  | leftParen => "`(`"
  | rightParen => "`)`"
  | semicolon => "`;`"
  | ending => "end of input"

/-- The kind of the token that one mark makes. -/
def ofMark? : Char → Option Kind
  | '+' => some plus
  | '-' => some minus
  | '*' => some times
  | '/' => some slash
  | '=' => some equals
  | '(' => some leftParen
  | ')' => some rightParen
  | ';' => some semicolon
  | _ => none

/-- The character of a kind whose tokens are single marks. -/
def mark? : Kind → Option Char
  | plus => some '+'
  | minus => some '-'
  | times => some '*'
  | slash => some '/'
  | equals => some '='
  | leftParen => some '('
  | rightParen => some ')'
  | semicolon => some ';'
  | identifier | number | ending => none

theorem mem_all (k : Kind) : k ∈ all := by cases k <;> decide

/-- What holds of every kind is decided by trying all of them. -/
instance decidableForall {p : Kind → Prop} [DecidablePred p] : Decidable (∀ k, p k) :=
  decidable_of_decidable_of_iff (p := ∀ k ∈ all, p k)
    ⟨fun h k => h k (mem_all k), fun h k _ => h k⟩

theorem label_injective : ∀ {a b : Kind}, a.label = b.label → a = b := by decide

theorem phrase_injective : ∀ {a b : Kind}, a.phrase = b.phrase → a = b := by decide

/-- A mark is exactly a character that makes a token by itself. -/
theorem isSome_ofMark? (c : Char) : (ofMark? c).isSome = isMark c := by
  unfold ofMark?
  split <;> simp_all [isMark]

/-- A kind is read off a mark exactly when the mark is its character. -/
theorem ofMark?_eq_some_iff {c : Char} {k : Kind} : ofMark? c = some k ↔ k.mark? = some c := by
  constructor
  · intro h
    unfold ofMark? at h
    split at h <;> cases h <;> rfl
  · intro h
    cases k <;> simp_all [mark?] <;> subst h <;> rfl

end Kind

end Token

/-- A token of some kind, with its text and the index of its first character. -/
structure Token where
  kind : Token.Kind
  text : String
  position : Nat
  deriving DecidableEq, Repr

namespace Token

/-- The token that stands at the end of a text. -/
def ending (position : Nat) : Token := ⟨.ending, "", position⟩

/-- How a diagnostic names a token that it found: its text in backticks, or the end of input. -/
def describe (t : Token) : String :=
  match t.kind with
  | .ending => "end of input"
  | _ => "`" ++ t.text ++ "`"

theorem describe_of_ne_ending {t : Token} (h : t.kind ≠ .ending) :
    t.describe = "`" ++ t.text ++ "`" := by
  unfold describe; split
  · next hk => exact absurd hk h
  · rfl

end Token

end Reckon
