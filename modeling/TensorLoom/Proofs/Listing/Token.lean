import TensorLoom.Proofs.Decimal.Reading
/-
# Tokens of a listing

The tokens of the C subset that listings are written in, and a scanner for them. The scanner
takes the longest token that it can, as C does. A line is given as its tokens and the blanks
between them; if no token could go on with what stands behind it, the scanner gives back the
tokens (`Line.scan_chars`).
-/

namespace TensorLoom.Listing

open Decimal

/-! ## Tokens -/

/-- Names with a meaning of their own. -/
inductive Word where
  | static | void | const | double | int64 | loop | output | buffers | entry
  | exp | log | sin | sqrt | pow | nan | infinity
deriving DecidableEq, Repr

namespace Word

def text : Word → String
  | static => "static"
  | void => "void"
  | const => "const"
  | double => "double"
  | int64 => "int64_t"
  | loop => "for"
  | output => "output"
  | buffers => "buffers"
  | entry => "gradforge_main"
  | exp => "exp"
  | log => "log"
  | sin => "sin"
  | sqrt => "sqrt"
  | pow => "pow"
  | nan => "NAN"
  | infinity => "INFINITY"

def all : List Word :=
  [static, void, const, double, int64, loop, output, buffers, entry, exp, log, sin, sqrt, pow, nan, infinity]

end Word

/-- Operators and separators. -/
inductive Mark where
  | leftParen | rightParen | leftBracket | rightBracket | leftBrace | rightBrace | comma | semicolon
  | assign | plus | minus | star | slash | percent | question | colon | less | bar
  | increment | addAssign | equal | atLeast
deriving DecidableEq, Repr

namespace Mark

def text : Mark → String
  | leftParen => "("
  | rightParen => ")"
  | leftBracket => "["
  | rightBracket => "]"
  | leftBrace => "\x7b"
  | rightBrace => "\x7d"
  | comma => ","
  | semicolon => ";"
  | assign => "="
  | plus => "+"
  | minus => "-"
  | star => "*"
  | slash => "/"
  | percent => "%"
  | question => "?"
  | colon => ":"
  | less => "<"
  | bar => "|"
  | increment => "++"
  | addAssign => "+="
  | equal => "=="
  | atLeast => ">="

def all : List Mark :=
  [leftParen, rightParen, leftBracket, rightBracket, leftBrace, rightBrace, comma, semicolon, assign, plus, minus, star,
    slash, percent, question, colon, less, bar, increment, addAssign, equal, atLeast]

end Mark

inductive Token where
  | word (w : Word)
  | mark (m : Mark)
  /-- The variable of a value. -/
  | value (k : ℕ)
  /-- The parameter of an input. -/
  | input (n : ℕ)
  /-- The name of a function. -/
  | function (f : ℕ)
  | number (text : List Char)
  | comment (text : List Char)
  | directive (text : List Char)
  | other (text : List Char)
deriving DecidableEq, Repr

def Token.text : Token → List Char
  | word w => w.text.toList
  | mark m => m.text.toList
  | value k => 'v' :: Nat.toDigits 10 k
  | input n => 'i' :: Nat.toDigits 10 n
  | function f => 'g' :: 'f' :: '_' :: 'f' :: 'n' :: '_' :: Nat.toDigits 10 f
  | number text | comment text | directive text | other text => text

def isLetter (c : Char) : Bool := c.isAlpha || c == '_'

/-- The token of a name. -/
def Token.ofName (name : List Char) : Token :=
  match name with
  | 'v' :: ds => ((natural? ds).map value).getD (ofWord name)
  | 'i' :: ds => ((natural? ds).map input).getD (ofWord name)
  | 'g' :: 'f' :: '_' :: 'f' :: 'n' :: '_' :: ds => ((natural? ds).map function).getD (ofWord name)
  | name => ofWord name
where
  ofWord (name : List Char) : Token := ((Word.all.find? fun w => w.text.toList = name).map word).getD (other name)

/-- The token with this text. -/
def Token.ofText (text : List Char) : Token :=
  match text with
  | '#' :: _ => directive text
  | '/' :: '*' :: _ => comment text
  | c :: _ =>
    if c.isDigit then number text
    else if isLetter c then ofName text
    else ((Mark.all.find? fun m => m.text.toList = text).map mark).getD (other text)
  | [] => other []

/-! ## The scanner -/

/-- What kind of token the scanner is in. -/
inductive Mode where
  | blank
  | name
  /-- A number; a sign belongs to it behind the letter of a power. -/
  | number (power : Bool)
  | directive
  | plus
  | relation
  | slash
  | comment
  | star
  /-- Nothing can follow. -/
  | closed
deriving DecidableEq, Repr

namespace Mode

/-- The mode after a first character. -/
def first (c : Char) : Mode :=
  if c = ' ' ∨ c = '\n' then blank
  else if isLetter c then name
  else if c.isDigit then number false
  else
    match c with
    | '#' => directive
    | '+' => plus
    | '=' | '>' => relation
    | '/' => slash
    | _ => closed

/-- The mode after a character that belongs to the token. -/
def next : Mode → Char → Option Mode
  | blank, _ => none
  | name, c => if isLetter c || c.isDigit then some name else none
  | number power, c =>
    if isLetter c || c.isDigit || c == '.' then some (number (c == 'e'))
    else if power && (c == '-' || c == '+') then some (number false)
    else none
  | directive, c => if c = '\n' then none else some directive
  | plus, c => if c = '+' ∨ c = '=' then some closed else none
  | relation, c => if c = '=' then some closed else none
  | slash, c => if c = '*' then some comment else none
  | comment, c => if c = '*' then some star else some comment
  | star, c => if c = '/' then some closed else if c = '*' then some star else some comment
  | closed, _ => none

def reads (m : Mode) (cs : List Char) : Option Mode := cs.foldlM next m

end Mode

def tokenOf (part : List Char) : List Token := if part = [] then [] else [Token.ofText part]

/-- The tokens of a text, in a mode and behind the part of a token. -/
def scan : Mode → (part : List Char) → List Char → List Token
  | _, part, [] => tokenOf part
  | m, part, c :: cs =>
    match m.next c with
    | some m' => scan m' (part ++ [c]) cs
    | none => tokenOf part ++ scan (Mode.first c) (if Mode.first c = .blank then [] else [c]) cs

/-- The tokens of a text. -/
def tokens (text : List Char) : List Token := scan .blank [] text

theorem scan_reads {m m' : Mode} {part w rest : List Char} (h : m.reads w = some m') :
    scan m part (w ++ rest) = scan m' (part ++ w) rest := by
  induction w generalizing m part with
  | nil =>
    cases h
    rw [List.nil_append, List.append_nil]
  | cons c w ih =>
    rw [Mode.reads, List.foldlM_cons] at h
    obtain ⟨n, hn, hw⟩ := Option.bind_eq_some_iff.1 h
    rw [List.cons_append, scan, hn]
    exact (ih hw).trans (by rw [List.append_assoc, List.singleton_append])

/-- The mode at the end of a text that is one token. -/
def lexeme? : List Char → Option Mode
  | [] => none
  | c :: cs => if Mode.first c = .blank then none else (Mode.first c).reads cs

theorem tokens_blank {c : Char} (hc : Mode.first c = .blank) (rest : List Char) : tokens (c :: rest) = tokens rest := by
  rw [tokens, tokens, scan, hc]
  rfl

/-- A token ends where it cannot go on. -/
theorem tokens_lexeme {w rest : List Char} {m : Mode} {d : Char} (hw : lexeme? w = some m) (hd : m.next d = none) :
    tokens (w ++ d :: rest) = Token.ofText w :: tokens (d :: rest) := by
  cases w with
  | nil => cases hw
  | cons c cs =>
    rw [lexeme?] at hw
    split at hw
    · cases hw
    · rename_i hblank
      have hstart : tokens (c :: cs ++ d :: rest) = scan (Mode.first c) [c] (cs ++ d :: rest) := by
        rw [tokens, List.cons_append, scan, if_neg hblank]
        rfl
      rw [hstart, scan_reads hw, scan, hd, tokens, scan]
      rfl

/-! ## Texts of tokens -/

/-- The mode behind a token. -/
def Mark.mode : Mark → Mode
  | plus => .plus
  | assign => .relation
  | slash => .slash
  | _ => .closed

def Token.mode : Token → Mode
  | word _ | value _ | input _ | function _ | other _ => .name
  | mark m => m.mode
  | number _ => .number false
  | comment _ => .closed
  | directive _ => .directive

def braceless (cs : List Char) : Bool := cs.all fun c => c != '\x7b' && c != '\x7d'

/-- The token is read from its text, and braces are tokens of their own. -/
structure Token.Legal (t : Token) : Prop where
  lexeme : lexeme? t.text = some t.mode
  ofText : ofText t.text = t
  braces : t ≠ mark .leftBrace → t ≠ mark .rightBrace → braceless t.text = true

instance (t : Token) : Decidable t.Legal :=
  decidable_of_iff (lexeme? t.text = some t.mode ∧ Token.ofText t.text = t ∧
      (t ≠ .mark .leftBrace → t ≠ .mark .rightBrace → braceless t.text = true))
    ⟨fun h => ⟨h.1, h.2.1, h.2.2⟩, fun h => ⟨h.lexeme, h.ofText, h.braces⟩⟩

theorem reads_append {m n o : Mode} {v w : List Char} (hv : m.reads v = some n) (hw : n.reads w = some o) :
    m.reads (v ++ w) = some o := by
  rw [Mode.reads, List.foldlM_append]
  exact Option.bind_eq_some_iff.2 ⟨n, hv, hw⟩

/-- A mode that a character does not leave. -/
theorem reads_same {m : Mode} {cs : List Char} (h : ∀ c ∈ cs, m.next c = some m) : m.reads cs = some m := by
  induction cs with
  | nil => rfl
  | cons c cs ih =>
    obtain ⟨hc, hcs⟩ := List.forall_mem_cons.1 h
    rw [Mode.reads, List.foldlM_cons, hc]
    exact ih hcs

theorem reads_name_digits (k : ℕ) : Mode.name.reads (Nat.toDigits 10 k) = some .name :=
  reads_same fun c hc => by simp [Mode.next, isDigit_toDigits k c hc]

theorem braceless_append (cs ds : List Char) : braceless (cs ++ ds) = (braceless cs && braceless ds) := List.all_append

theorem braceless_of_isDigit {cs : List Char} (h : ∀ c ∈ cs, c.isDigit = true) : braceless cs = true := by
  refine List.all_eq_true.2 fun c hc => ?_
  have hdigit := h c hc
  rw [Bool.and_eq_true, bne_iff_ne, bne_iff_ne]
  constructor <;> rintro rfl <;> exact absurd hdigit (by decide)

theorem braceless_toDigits (k : ℕ) : braceless (Nat.toDigits 10 k) = true := braceless_of_isDigit (isDigit_toDigits k)

namespace Token

@[simp] theorem legal_word (w : Word) : (word w).Legal := by
  cases w <;> exact ⟨rfl, by decide, by decide⟩

@[simp] theorem legal_mark (m : Mark) : (mark m).Legal := by
  cases m <;> exact ⟨rfl, by decide, by decide⟩

@[simp] theorem legal_value (k : ℕ) : (value k).Legal := by
  refine ⟨reads_name_digits k, ?_, fun _ _ => braceless_toDigits k⟩
  show ((natural? (Nat.toDigits 10 k)).map value).getD _ = _
  rw [natural?_toDigits]
  rfl

@[simp] theorem legal_input (n : ℕ) : (input n).Legal := by
  refine ⟨reads_name_digits n, ?_, fun _ _ => braceless_toDigits n⟩
  show ((natural? (Nat.toDigits 10 n)).map input).getD _ = _
  rw [natural?_toDigits]
  rfl

@[simp] theorem legal_function (f : ℕ) : (function f).Legal := by
  refine ⟨reads_name_digits f, ?_, fun _ _ => braceless_toDigits f⟩
  show ((natural? (Nat.toDigits 10 f)).map function).getD _ = _
  rw [natural?_toDigits]
  rfl

end Token

section
variable {n : Numeral}

theorem next_number_digit {c : Char} (hc : c.isDigit = true) (power : Bool) :
    Mode.next (.number power) c = some (.number false) := by
  have he : (c == 'e') = false := by
    rw [beq_eq_false_iff_ne]
    rintro rfl
    exact absurd hc (by decide)
  simp [Mode.next, hc, he]

theorem reads_fractionText (h : ∀ c ∈ n.fraction.getD [], c.isDigit = true) :
    (Mode.number false).reads (fractionText n.fraction) = some (.number false) := by
  cases hf : n.fraction with
  | none => rfl
  | some ds =>
    rw [hf] at h
    have hdigits : (Mode.number false).reads ds = some (.number false) := reads_same fun c hc => next_number_digit (h c hc) false
    exact hdigits

theorem reads_powerText (power : Option ℤ) : (Mode.number false).reads (powerText power) = some (.number false) := by
  cases power with
  | none => rfl
  | some e =>
    have hdigits : ∀ k power, (Mode.number power).reads (Nat.toDigits 10 k) = some (.number false) := by
      intro k power
      obtain ⟨c, cs, hcs, -⟩ := toDigits_head k
      have hall := isDigit_toDigits k
      rw [hcs, List.forall_mem_cons] at hall
      rw [hcs, Mode.reads, List.foldlM_cons, next_number_digit hall.1]
      exact reads_same fun c hc => next_number_digit (hall.2 c hc) false
    show (Mode.number true).reads (toString e).toList = _
    rw [toList_toString_int]
    split
    · exact hdigits _ true
    · exact hdigits _ false

theorem braceless_fractionText (h : ∀ c ∈ n.fraction.getD [], c.isDigit = true) : braceless (fractionText n.fraction) = true := by
  cases hf : n.fraction with
  | none => rfl
  | some ds =>
    rw [hf] at h
    have hdigits : braceless ds = true := braceless_of_isDigit h
    exact hdigits

theorem braceless_powerText (power : Option ℤ) : braceless (powerText power) = true := by
  cases power with
  | none => rfl
  | some e =>
    show braceless (toString e).toList = true
    rw [toList_toString_int]
    split
    · exact braceless_toDigits _
    · exact braceless_toDigits _

theorem isLetter_of_isDigit {c : Char} (hc : c.isDigit = true) : isLetter c = false := by
  have hne : c ≠ '_' := by
    rintro rfl
    exact absurd hc (by decide)
  simp only [Char.isDigit, Bool.and_eq_true, decide_eq_true_eq, UInt32.le_iff_toNat_le, ge_iff_le] at hc
  have hdigit : 48 ≤ c.val.toNat ∧ c.val.toNat ≤ 57 := hc
  have hletter : ¬ (65 ≤ c.val.toNat ∧ c.val.toNat ≤ 90) ∧ (¬ 97 ≤ c.val.toNat ∨ ¬ c.val.toNat ≤ 122) := by omega
  unfold isLetter Char.isAlpha Char.isUpper Char.isLower
  simp only [Bool.or_eq_false_iff, Bool.and_eq_false_iff, decide_eq_false_iff_not, beq_eq_false_iff_ne,
    UInt32.le_iff_toNat_le, ge_iff_le]
  exact ⟨hletter, hne⟩

theorem first_digit {c : Char} (hc : c.isDigit = true) : Mode.first c = .number false := by
  have hblank : ¬ (c = ' ' ∨ c = '\n') := by
    rintro (rfl | rfl) <;> exact absurd hc (by decide)
  simp [Mode.first, hblank, isLetter_of_isDigit hc, hc]

theorem ofText_digit {c : Char} (hc : c.isDigit = true) (cs : List Char) : Token.ofText (c :: cs) = .number (c :: cs) := by
  unfold Token.ofText
  split
  · rename_i heq
    cases heq
    exact absurd hc (by decide)
  · rename_i heq
    cases heq
    exact absurd hc (by decide)
  · rename_i heq
    cases heq
    rw [if_pos hc]
  · rename_i heq
    cases heq

/-- Numerals are numbers. -/
theorem Token.legal_number (hn : n.WellFormed) : (number n.text).Legal := by
  obtain ⟨c, cs, hcs⟩ := List.exists_cons_of_ne_nil hn.ne_nil
  have hdigits := hn.whole
  rw [hcs, List.forall_mem_cons] at hdigits
  have htext : n.text = c :: (cs ++ (fractionText n.fraction ++ powerText n.power)) := by
    rw [Numeral.text, hcs, List.cons_append]
  refine ⟨?_, ?_, fun _ _ => ?_⟩
  · show lexeme? n.text = _
    rw [htext, lexeme?, first_digit hdigits.1, if_neg (by decide)]
    have hwhole := reads_same fun c hc => next_number_digit (hdigits.2 c hc) false
    exact reads_append hwhole (reads_append (reads_fractionText hn.fraction) (reads_powerText n.power))
  · show ofText n.text = number n.text
    rw [htext]
    exact ofText_digit hdigits.1 _
  · show braceless n.text = true
    rw [Numeral.text, braceless_append, braceless_append, braceless_of_isDigit hn.whole, braceless_fractionText hn.fraction,
      braceless_powerText]
    rfl

end

@[simp] theorem Token.legal_natural (k : ℕ) : (number (Nat.toDigits 10 k)).Legal := by
  have htext : Numeral.text ⟨Nat.toDigits 10 k, none, none⟩ = Nat.toDigits 10 k := List.append_nil _
  rw [← htext]
  exact legal_number ⟨Nat.toDigits_ne_nil, isDigit_toDigits k, by simp⟩

/-! ## Lines -/

/-- The tokens of a line and the blanks between them. -/
abbrev Line := List (Option Token)

namespace Line

def chars : Line → List Char
  | [] => []
  | none :: l => ' ' :: chars l
  | some t :: l => t.text ++ chars l

def tokens : Line → List Token
  | [] => []
  | none :: l => tokens l
  | some t :: l => t :: tokens l

/-- The character at the front of the line, or behind it if it is empty. -/
def front : Line → Char
  | [] => '\n'
  | none :: _ => ' '
  | some t :: _ => t.text.headD ' '

/-- No token could go on with what stands behind it. -/
def apart : Line → Bool
  | [] => true
  | none :: l => apart l
  | some t :: l => (t.mode.next (front l)).isNone && apart l

variable {l : Line}

theorem chars_append (l l' : Line) : chars (l ++ l') = chars l ++ chars l' := by
  induction l with
  | nil => rfl
  | cons p l ih => cases p <;> simp [chars, ih]

theorem tokens_append (l l' : Line) : tokens (l ++ l') = tokens l ++ tokens l' := by
  induction l with
  | nil => rfl
  | cons p l ih => cases p <;> simp [tokens, ih]

theorem exists_front (hlegal : ∀ t ∈ l.tokens, t.Legal) (rest : List Char) :
    ∃ cs, l.chars ++ '\n' :: rest = l.front :: cs := by
  cases l with
  | nil => exact ⟨rest, rfl⟩
  | cons p l =>
    cases p with
    | none => exact ⟨chars l ++ '\n' :: rest, rfl⟩
    | some t =>
      have hlexeme := (hlegal t List.mem_cons_self).lexeme
      cases htext : t.text with
      | nil =>
        rw [htext] at hlexeme
        cases hlexeme
      | cons c cs => exact ⟨cs ++ (chars l ++ '\n' :: rest), by simp [chars, front, htext]⟩

/-- The tokens of a line are scanned back. -/
theorem scan_chars (hlegal : ∀ t ∈ l.tokens, t.Legal) (hapart : l.apart = true) (rest : List Char) :
    Listing.tokens (l.chars ++ '\n' :: rest) = l.tokens ++ Listing.tokens rest := by
  induction l with
  | nil => exact tokens_blank rfl rest
  | cons p l ih =>
    cases p with
    | none => exact (tokens_blank rfl _).trans (ih hlegal hapart)
    | some t =>
      obtain ⟨ht, hlegal⟩ := List.forall_mem_cons.1 hlegal
      rw [apart, Bool.and_eq_true, Option.isNone_iff_eq_none] at hapart
      obtain ⟨cs, hcs⟩ := exists_front hlegal rest
      rw [chars, tokens, List.append_assoc, hcs, tokens_lexeme ht.lexeme hapart.1, ht.ofText, ← hcs, ih hlegal hapart.2]
      rfl

end Line

end TensorLoom.Listing
