/-
  Message selectors of JMS: a conditional expression over the header fields and
  properties of a message.

  * `lex` cuts a text into tokens, one character after the other; `parse` reads
    an expression off the tokens, by precedence; `Expr.eval` is its value, where
    `none` is null or unknown;
  * `Selects text env`: the text is a selector, and it is true where `env` gives
    the identifiers their values;
  * `selects_conjunction`: a conjunction of tests for equality with literals is a
    selector, and it is true exactly where all tests hold.

  Numerals are decimal, and numbers are exact.
-/
import Mathlib.Data.Rat.Defs
import Mathlib.Algebra.Order.Ring.Rat
import Mathlib.Algebra.Group.Nat.Even
import Mathlib.Data.List.TakeDrop
import Mathlib.Data.List.TakeWhile

namespace Lib.Selector

/-! ## Values and expressions -/

inductive Value
  | bool (b : Bool)
  | num (q : ℚ)
  | str (s : String)
  deriving DecidableEq

inductive ArithOp
  | add
  | sub
  | mul
  | div
  deriving DecidableEq

inductive CmpOp
  | eq
  | ne
  | lt
  | le
  | gt
  | ge
  deriving DecidableEq

inductive Expr
  | ident (name : String)
  | lit (v : Value)
  | neg (a : Expr)
  | arith (o : ArithOp) (a b : Expr)
  | cmp (o : CmpOp) (a b : Expr)
  | not (a : Expr)
  | and (a b : Expr)
  | or (a b : Expr)
  | between (a lo hi : Expr)
  | isIn (a : Expr) (ss : List String)
  | like (a : Expr) (pattern : List Char) (escape : Option Char)
  | isNull (a : Expr)

namespace Value

def neg : Value → Option Value
  | num q => some (num (-q))
  | _ => none

def arith : ArithOp → Value → Value → Option Value
  | .add, num a, num b => some (num (a + b))
  | .sub, num a, num b => some (num (a - b))
  | .mul, num a, num b => some (num (a * b))
  | .div, num a, num b => if b = 0 then none else some (num (a / b))
  | _, _, _ => none

def sameType : Value → Value → Bool
  | bool _, bool _ | num _, num _ | str _, str _ => true
  | _, _ => false

/-- Values of different types compare false; only numbers are ordered. -/
def cmp : CmpOp → Value → Value → Bool
  | .eq, a, b => a = b
  | .ne, a, b => a.sameType b && a ≠ b
  | .lt, num a, num b => a < b
  | .le, num a, num b => a ≤ b
  | .gt, num a, num b => b < a
  | .ge, num a, num b => b ≤ a
  | _, _, _ => false

end Value

/-- `%` stands for any characters, `_` for one; the escape character takes
    their meaning away. -/
def like (escape : Option Char) : List Char → List Char → Bool
  | [], s => s.isEmpty
  | p :: q :: ps, s =>
    if escape = some p then
      match s with
      | c :: s => q = c && like escape ps s
      | [] => false
    else if p = '%' then s.tails.any (like escape (q :: ps))
    else
      match s with
      | c :: s => (p = '_' || p = c) && like escape (q :: ps) s
      | [] => false
  | [p], s => escape ≠ some p && (p = '%' || match s with
      | [c] => p = '_' || p = c
      | _ => false)

def not3 : Option Value → Option Value
  | some (.bool b) => some (.bool !b)
  | _ => none

def and3 : Option Value → Option Value → Option Value
  | some (.bool false), _ | _, some (.bool false) => some (.bool false)
  | some (.bool true), some (.bool true) => some (.bool true)
  | _, _ => none

def or3 : Option Value → Option Value → Option Value
  | some (.bool true), _ | _, some (.bool true) => some (.bool true)
  | some (.bool false), some (.bool false) => some (.bool false)
  | _, _ => none

namespace Expr

/-- The value of an expression; `none` is null or unknown. -/
def eval (env : String → Option Value) : Expr → Option Value
  | ident name => env name
  | lit v => some v
  | neg a => (eval env a).bind Value.neg
  | arith o a b => (eval env a).bind fun v => (eval env b).bind (v.arith o)
  | cmp o a b => (eval env a).bind fun v => (eval env b).map fun w => .bool (v.cmp o w)
  | not a => not3 (eval env a)
  | and a b => and3 (eval env a) (eval env b)
  | or a b => or3 (eval env a) (eval env b)
  | between a lo hi =>
    and3
      ((eval env a).bind fun v => (eval env lo).map fun w => .bool (v.cmp .ge w))
      ((eval env a).bind fun v => (eval env hi).map fun w => .bool (v.cmp .le w))
  | isIn a ss => (eval env a).map fun v => .bool (ss.any fun s => v = .str s)
  | like a pattern escape => (eval env a).map fun
    | .str s => .bool (Selector.like escape pattern s.toList)
    | _ => .bool false
  | isNull a => some (.bool (eval env a).isNone)

end Expr

/-! ## Tokens -/

inductive Keyword
  | null
  | true_
  | false_
  | not_
  | and_
  | or_
  | between
  | like
  | in_
  | is_
  | escape
  deriving DecidableEq

inductive Symbol
  | eq
  | ne
  | lt
  | le
  | gt
  | ge
  | plus
  | minus
  | times
  | divide
  | openParen
  | closeParen
  | comma
  deriving DecidableEq

inductive Token
  | ident (name : String)
  | str (s : String)
  | num (q : ℚ)
  | kw (k : Keyword)
  | sym (s : Symbol)
  deriving DecidableEq

/-- The reserved words, in any case. -/
def keyword (w : List Char) : Option Keyword :=
  match String.ofList (w.map Char.toUpper) with
  | "NULL" => some .null
  | "TRUE" => some .true_
  | "FALSE" => some .false_
  | "NOT" => some .not_
  | "AND" => some .and_
  | "OR" => some .or_
  | "BETWEEN" => some .between
  | "LIKE" => some .like
  | "IN" => some .in_
  | "IS" => some .is_
  | "ESCAPE" => some .escape
  | _ => none

/-- What Java says of the characters beyond ASCII: which start an identifier,
    and which are part of one. -/
structure Alphabet where
  start : Char → Bool
  part : Char → Bool

namespace Alphabet

variable (A : Alphabet)

def isStart (c : Char) : Bool :=
  if c.toNat < 128 then c.isAlpha || c = '_' || c = '$' else A.start c

def isPart (c : Char) : Bool :=
  if c.toNat < 128 then c.isAlphanum || c = '_' || c = '$' else A.part c

/-- The names that selectors and message properties have. -/
def isIdentifier : List Char → Bool
  | [] => false
  | c :: cs => A.isStart c && cs.all A.isPart && (keyword (c :: cs)).isNone

end Alphabet

/-! ### Numerals -/

def natural (w : List Char) : Option ℕ :=
  if w ≠ [] ∧ w.all Char.isDigit then some (Nat.ofDigitChars 10 w 0) else none

/-- Digits with a point among them, if any. -/
def mantissa (w : List Char) : Option ℚ :=
  match w.span (· ≠ '.') with
  | (i, []) => (natural i).map Nat.cast
  | (i, _ :: f) => (natural (i ++ f)).map fun n => n / 10 ^ f.length

def numeral (w : List Char) : Option ℚ :=
  match w.span fun c => c ≠ 'e' ∧ c ≠ 'E' with
  | (m, []) => mantissa m
  | (m, _ :: '-' :: x) => (mantissa m).bind fun q => (natural x).map fun n => q / 10 ^ n
  | (m, _ :: '+' :: x) => (mantissa m).bind fun q => (natural x).map fun n => q * 10 ^ n
  | (m, _ :: x) => (mantissa m).bind fun q => (natural x).map fun n => q * 10 ^ n

/-- Whether a numeral goes on: a sign belongs to it right after an exponent mark. -/
def numeralPart (w : List Char) (c : Char) : Bool :=
  c.isDigit || c = '.' || c = 'e' || c = 'E' ||
    ((c = '+' || c = '-') && (w.getLast? = some 'e' || w.getLast? = some 'E'))

/-! ### The automaton -/

/-- What was read of the token at hand. -/
inductive LexState
  | start
  | word (w : List Char)
  | number (w : List Char)
  | string (w : List Char)
  /-- after a quote inside a string, which may double it -/
  | quote (w : List Char)
  | less
  | greater
  deriving DecidableEq

def LexState.closing : LexState → Option (List Token)
  | start => some []
  | word w => some [match keyword w with
      | some k => .kw k
      | none => .ident (String.ofList w)]
  | number w => (numeral w).map fun q => [.num q]
  | string _ => none
  | quote w => some [.str (String.ofList w)]
  | less => some [.sym .lt]
  | greater => some [.sym .gt]

section
variable (A : Alphabet)

/-- The first character of a token, or a blank. -/
def opening (c : Char) : Option (List Token × LexState) :=
  if A.isStart c then some ([], .word [c])
  else if c.isDigit then some ([], .number [c])
  else
    match c with
    | ' ' | '\t' | '\n' | '\r' | '\x0c' => some ([], .start)
    | '.' => some ([], .number [c])
    | '\'' => some ([], .string [])
    | '=' => some ([.sym .eq], .start)
    | '<' => some ([], .less)
    | '>' => some ([], .greater)
    | '+' => some ([.sym .plus], .start)
    | '-' => some ([.sym .minus], .start)
    | '*' => some ([.sym .times], .start)
    | '/' => some ([.sym .divide], .start)
    | '(' => some ([.sym .openParen], .start)
    | ')' => some ([.sym .closeParen], .start)
    | ',' => some ([.sym .comma], .start)
    | _ => none

def LexState.turn (s : LexState) (c : Char) : Option (List Token × LexState) :=
  s.closing.bind fun ts => (opening A c).map fun r => (ts ++ r.1, r.2)

def LexState.next (s : LexState) (c : Char) : Option (List Token × LexState) :=
  match s with
  | start => opening A c
  | word w => if A.isPart c then some ([], word (w ++ [c])) else s.turn A c
  | number w => if numeralPart w c then some ([], number (w ++ [c])) else s.turn A c
  | string w => some ([], if c = '\'' then quote w else string (w ++ [c]))
  | quote w => if c = '\'' then some ([], string (w ++ [c])) else s.turn A c
  | less =>
    if c = '=' then some ([.sym .le], start)
    else if c = '>' then some ([.sym .ne], start)
    else s.turn A c
  | greater => if c = '=' then some ([.sym .ge], start) else s.turn A c

def lexFrom : LexState → List Char → Option (List Token)
  | s, [] => s.closing
  | s, c :: cs => (s.next A c).bind fun r => (lexFrom r.2 cs).map (r.1 ++ ·)

def lex (text : String) : Option (List Token) := lexFrom A .start text.toList

end

/-! ## The parser -/

abbrev Parser (α : Type) := List Token → Option (α × List Token)

/-- What follows the first operand of a chain of left-associative operators.
    An operator takes a token, so the number of tokens bounds the chain. -/
def chainFrom (op : Token → Option (Expr → Expr → Expr)) (p : Parser Expr) :
    ℕ → Expr → Parser Expr
  | n + 1, e, t :: ts =>
    match op t with
    | some f => (p ts).bind fun r => chainFrom op p n (f e r.1) r.2
    | none => some (e, t :: ts)
  | _, e, ts => some (e, ts)

def chain (op : Token → Option (Expr → Expr → Expr)) (p : Parser Expr) : Parser Expr := fun ts =>
  (p ts).bind fun r => chainFrom op p r.2.length r.1 r.2

def mulOp : Token → Option (Expr → Expr → Expr)
  | .sym .times => some (.arith .mul)
  | .sym .divide => some (.arith .div)
  | _ => none

def addOp : Token → Option (Expr → Expr → Expr)
  | .sym .plus => some (.arith .add)
  | .sym .minus => some (.arith .sub)
  | _ => none

def cmpOp : Token → Option CmpOp
  | .sym .eq => some .eq
  | .sym .ne => some .ne
  | .sym .lt => some .lt
  | .sym .le => some .le
  | .sym .gt => some .gt
  | .sym .ge => some .ge
  | _ => none

def andOp : Token → Option (Expr → Expr → Expr)
  | .kw .and_ => some .and
  | _ => none

def orOp : Token → Option (Expr → Expr → Expr)
  | .kw .or_ => some .or
  | _ => none

section
variable (expr : Parser Expr)

def primary : Parser Expr
  | .ident name :: ts => some (.ident name, ts)
  | .str s :: ts => some (.lit (.str s), ts)
  | .num q :: ts => some (.lit (.num q), ts)
  | .kw .true_ :: ts => some (.lit (.bool true), ts)
  | .kw .false_ :: ts => some (.lit (.bool false), ts)
  | .sym .openParen :: ts =>
    match expr ts with
    | some (e, .sym .closeParen :: ts) => some (e, ts)
    | _ => none
  | _ => none

def unary : Parser Expr
  | .sym .minus :: ts => (unary ts).map fun r => (.neg r.1, r.2)
  | .sym .plus :: ts => unary ts
  | ts => primary expr ts

def sum : Parser Expr := chain addOp (chain mulOp (unary expr))

/-- The strings of an `IN` list after its first. -/
def strings : Parser (List String)
  | .sym .comma :: .str s :: ts => (strings ts).map fun r => (s :: r.1, r.2)
  | .sym .closeParen :: ts => some ([], ts)
  | _ => none

/-- `BETWEEN`, `IN` and `LIKE`, after the operand. -/
def predicate (a : Expr) : Parser Expr
  | .kw .between :: ts => (sum expr ts).bind fun
    | (lo, .kw .and_ :: ts) => (sum expr ts).map fun r => (.between a lo r.1, r.2)
    | _ => none
  | .kw .in_ :: .sym .openParen :: .str s :: ts =>
    (strings ts).map fun r => (.isIn a (s :: r.1), r.2)
  | .kw .like :: .str s :: .kw .escape :: .str e :: ts =>
    match e.toList with
    | [c] => some (.like a s.toList (some c), ts)
    | _ => none
  | .kw .like :: .str s :: ts => some (.like a s.toList none, ts)
  | _ => none

/-- What follows the first operand of a comparison. -/
def comparisonFrom (a : Expr) : Parser Expr
  | .kw .is_ :: .kw .null :: ts => some (.isNull a, ts)
  | .kw .is_ :: .kw .not_ :: .kw .null :: ts => some (.not (.isNull a), ts)
  | .kw .not_ :: ts => (predicate expr a ts).map fun r => (.not r.1, r.2)
  | .kw .between :: ts => predicate expr a (.kw .between :: ts)
  | .kw .in_ :: ts => predicate expr a (.kw .in_ :: ts)
  | .kw .like :: ts => predicate expr a (.kw .like :: ts)
  | t :: ts =>
    match cmpOp t with
    | some o => (sum expr ts).map fun r => (.cmp o a r.1, r.2)
    | none => some (a, t :: ts)
  | [] => some (a, [])

def comparison : Parser Expr := fun ts => (sum expr ts).bind fun r => comparisonFrom expr r.1 r.2

def negation : Parser Expr
  | .kw .not_ :: ts => (negation ts).map fun r => (.not r.1, r.2)
  | ts => comparison expr ts

def condition : Parser Expr := chain orOp (chain andOp (negation expr))

end

/-- Parentheses nest no deeper than there are tokens. -/
def expression : ℕ → Parser Expr
  | 0 => fun _ => none
  | n + 1 => condition (expression n)

section
variable (A : Alphabet)

/-- An empty text selects every message. -/
def parse (text : String) : Option Expr :=
  (lex A text).bind fun ts =>
    if ts = [] then some (.lit (.bool true))
    else
      match expression (ts.length + 1) ts with
      | some (e, []) => some e
      | _ => none

def Valid (text : String) : Prop := (parse A text).isSome

def Selects (text : String) (env : String → Option Value) : Prop :=
  (parse A text).bind (Expr.eval env) = some (.bool true)

instance (text : String) : Decidable (Valid A text) := inferInstanceAs (Decidable (_ = _))

instance (text : String) (env : String → Option Value) : Decidable (Selects A text env) :=
  inferInstanceAs (Decidable (_ = _))

end

/-! ## Reading what was written

Texts, their tokens and the expressions these stand for: names, literals, tests
for equality, and conjunctions of tests. -/

section
variable {A : Alphabet} {rest : List Char}

theorem lexFrom_start_nil : lexFrom A .start [] = some [] := rfl

theorem lexFrom_start_blank : lexFrom A .start (' ' :: rest) = lexFrom A .start rest := by
  simp [lexFrom, LexState.next, opening, Alphabet.isStart]

theorem lexFrom_word {w cs : List Char} (h : ∀ c ∈ cs, A.isPart c) :
    lexFrom A (.word w) (cs ++ rest) = lexFrom A (.word (w ++ cs)) rest := by
  induction cs generalizing w with
  | nil => rw [List.nil_append, List.append_nil]
  | cons c cs ih =>
    obtain ⟨hc, hcs⟩ := List.forall_mem_cons.1 h
    simp [lexFrom, LexState.next, hc, ih hcs]

theorem lexFrom_string {w cs : List Char} (h : '\'' ∉ cs) :
    lexFrom A (.string w) (cs ++ rest) = lexFrom A (.string (w ++ cs)) rest := by
  induction cs generalizing w with
  | nil => rw [List.nil_append, List.append_nil]
  | cons c cs ih =>
    obtain ⟨hc, hcs⟩ := List.ne_and_not_mem_of_not_mem_cons h
    simp [lexFrom, LexState.next, hc.symm, ih hcs]

theorem lexFrom_number {w cs : List Char} (h : ∀ c ∈ cs, c.isDigit) :
    lexFrom A (.number w) (cs ++ rest) = lexFrom A (.number (w ++ cs)) rest := by
  induction cs generalizing w with
  | nil => rw [List.nil_append, List.append_nil]
  | cons c cs ih =>
    obtain ⟨hc, hcs⟩ := List.forall_mem_cons.1 h
    simp [lexFrom, LexState.next, numeralPart, hc, ih hcs]

/-- A character at which every token but a string ends. -/
theorem lexFrom_turn {s : LexState} {c : Char} {ts : List Token}
    (hn : s.next A c = s.turn A c) (hs : s.closing = some ts) :
    lexFrom A s (c :: rest) = (lexFrom A .start (c :: rest)).map (ts ++ ·) := by
  have hnext : s.next A c = (opening A c).map fun r => (ts ++ r.1, r.2) := by
    rw [hn, LexState.turn, hs, Option.bind_some]
  have hstart : LexState.start.next A c = opening A c := rfl
  rw [lexFrom, lexFrom, hnext, hstart]
  rcases opening A c with _ | r
  · rfl
  · simp [Function.comp_def]

theorem lexFrom_ident {w : List Char} (h : A.isIdentifier w) :
    lexFrom A .start (w ++ '=' :: rest) =
      (lexFrom A .start rest).map ([.ident (String.ofList w), .sym .eq] ++ ·) := by
  rcases w with _ | ⟨c, cs⟩
  · cases h
  · simp only [Alphabet.isIdentifier, Bool.and_eq_true, List.all_eq_true,
      Option.isNone_iff_eq_none] at h
    obtain ⟨⟨hc, hcs⟩, hk⟩ := h
    have hopen : lexFrom A .start (c :: cs ++ '=' :: rest) =
        lexFrom A (.word [c]) (cs ++ '=' :: rest) := by
      simp [lexFrom, LexState.next, opening, hc]
    have hturn : (LexState.word (c :: cs)).next A '=' = (LexState.word (c :: cs)).turn A '=' := by
      simp [LexState.next, Alphabet.isPart]
    rw [hopen, lexFrom_word hcs, List.singleton_append,
      lexFrom_turn hturn (by rw [LexState.closing, hk])]
    simp [lexFrom, LexState.next, opening, Alphabet.isStart, Function.comp_def]

theorem lexFrom_and :
    lexFrom A .start (' ' :: 'A' :: 'N' :: 'D' :: ' ' :: rest) =
      (lexFrom A .start rest).map ([.kw .and_] ++ ·) := by
  have hand : lexFrom A .start (' ' :: 'A' :: 'N' :: 'D' :: ' ' :: rest) =
      lexFrom A (.word ['A', 'N', 'D']) (' ' :: rest) := by
    simp [lexFrom, LexState.next, opening, Alphabet.isStart, Alphabet.isPart, Function.comp_def]
  have hturn : (LexState.word ['A', 'N', 'D']).next A ' ' =
      (LexState.word ['A', 'N', 'D']).turn A ' ' := by
    simp [LexState.next, Alphabet.isPart]
  rw [hand, lexFrom_turn hturn rfl, lexFrom_start_blank]
  rfl

end

/-! ### Numerals -/

theorem natural_toDigits (n : ℕ) : natural (Nat.toDigits 10 n) = some n := by
  have hd : (Nat.toDigits 10 n).all Char.isDigit := by
    rw [List.all_eq_true]
    exact fun c hc => Nat.isDigit_of_mem_toDigits (by decide) (by decide) hc
  rw [natural, if_pos ⟨Nat.toDigits_ne_nil, hd⟩, Nat.ofDigitChars_ten_toDigits]

/-- A numeral without point and exponent is read as a natural number. -/
theorem numeral_of_isDigit {w : List Char} (h : ∀ c ∈ w, c.isDigit) :
    numeral w = (natural w).map Nat.cast := by
  have hspan (p : Char → Bool) (hp : ∀ c : Char, c.isDigit → p c) : w.span p = (w, []) := by
    rw [List.span_eq_takeWhile_dropWhile, List.takeWhile_eq_self_iff.2 fun c hc => hp c (h c hc),
      List.dropWhile_eq_nil_iff.2 fun c hc => hp c (h c hc)]
  have he : w.span (fun c => c ≠ 'e' ∧ c ≠ 'E') = (w, []) := by
    refine hspan _ fun c hc => ?_
    have h1 : c ≠ 'e' := by rintro rfl; exact absurd hc (by decide)
    have h2 : c ≠ 'E' := by rintro rfl; exact absurd hc (by decide)
    exact decide_eq_true ⟨h1, h2⟩
  have hp : w.span (· ≠ '.') = (w, []) := by
    refine hspan _ fun c hc => ?_
    have h1 : c ≠ '.' := by rintro rfl; exact absurd hc (by decide)
    exact decide_eq_true h1
  simp only [numeral, he, mantissa, hp]

/-! ### Literals -/

/-- The literals of a test: integers and strings. -/
inductive Literal
  | int (i : ℤ)
  | str (s : String)
  deriving DecidableEq

namespace Literal

def value : Literal → Value
  | int i => .num i
  | str s => .str s

/-- A string between quotes, as it is. -/
def chars : Literal → List Char
  | int i => (toString i).toList
  | str s => '\'' :: s.toList ++ ['\'']

def Plain : Literal → Prop
  | int _ => True
  | str s => '\'' ∉ s.toList

def tokens : Literal → List Token
  | int i => if 0 ≤ i then [.num i.toNat] else [.sym .minus, .num (-i).toNat]
  | str s => [.str s]

def expr : Literal → Expr
  | int i => if 0 ≤ i then .lit (.num i.toNat) else .neg (.lit (.num (-i).toNat))
  | str s => .lit (.str s)

theorem chars_int (i : ℤ) : (int i).chars =
    if 0 ≤ i then Nat.toDigits 10 i.toNat else '-' :: Nat.toDigits 10 (-i).toNat := by
  rw [chars, Int.toString_eq_repr, Int.repr_eq_if]
  split_ifs
  · rw [Nat.toList_repr]
  · rw [String.toList_append, Nat.toList_repr]
    rfl

theorem quote_notMem_int (i : ℤ) : '\'' ∉ (int i).chars := by
  have hd (n : ℕ) : '\'' ∉ Nat.toDigits 10 n := fun h =>
    absurd (Nat.isDigit_of_mem_toDigits (by decide) (by decide) h) (by decide)
  rw [chars_int]
  split_ifs <;> simp [hd]

theorem eval_expr (env : String → Option Value) (l : Literal) : l.expr.eval env = some l.value := by
  cases l with
  | str s => rfl
  | int i =>
    have hcast (j : ℤ) (hj : 0 ≤ j) : ((j.toNat : ℕ) : ℚ) = j := by
      rw [← Int.cast_natCast, Int.toNat_of_nonneg hj]
    by_cases hi : 0 ≤ i
    · simp [expr, hi, Expr.eval, value, hcast]
    · have hn : 0 ≤ -i := by omega
      simp [expr, hi, Expr.eval, value, Value.neg, hcast _ hn]

end Literal

section
variable {A : Alphabet} {rest : List Char}

/-- Where a literal may end. -/
def Stops (rest : List Char) : Prop := rest = [] ∨ ∃ r, rest = ' ' :: r

theorem lexFrom_close {s : LexState} {ts : List Token} (h : Stops rest)
    (hn : s.next A ' ' = s.turn A ' ') (hs : s.closing = some ts) :
    lexFrom A s rest = (lexFrom A .start rest).map (ts ++ ·) := by
  rcases h with rfl | ⟨r, rfl⟩
  · rw [lexFrom, hs, lexFrom_start_nil, Option.map_some, List.append_nil]
  · exact lexFrom_turn hn hs

theorem isStart_eq_false {c : Char} (h : c.isDigit) : A.isStart c = false := by
  have hr : 48 ≤ c.toNat ∧ c.toNat ≤ 57 := by
    simp only [Char.isDigit, Bool.and_eq_true, decide_eq_true_eq, ge_iff_le,
      UInt32.le_iff_toNat_le] at h
    exact h
  have ha : c.isAlpha = false := by
    rw [Bool.eq_false_iff]
    change ¬ (decide (c.val ≥ 65 ∧ c.val ≤ 90) ||
      decide (c.val ≥ 97) && decide (c.val ≤ 122)) = true
    simp only [Bool.or_eq_true, Bool.and_eq_true, decide_eq_true_eq, ge_iff_le,
      UInt32.le_iff_toNat_le]
    change ¬ (65 ≤ c.toNat ∧ c.toNat ≤ 90 ∨ 97 ≤ c.toNat ∧ c.toNat ≤ 122)
    omega
  have h1 : c ≠ '_' := by rintro rfl; exact absurd h (by decide)
  have h2 : c ≠ '$' := by rintro rfl; exact absurd h (by decide)
  have hlt : c.toNat < 128 := by omega
  simp [Alphabet.isStart, hlt, ha, h1, h2]

theorem lexFrom_toDigits (n : ℕ) (h : Stops rest) :
    lexFrom A .start (Nat.toDigits 10 n ++ rest) =
      (lexFrom A .start rest).map ([.num n] ++ ·) := by
  have hd : ∀ c ∈ Nat.toDigits 10 n, c.isDigit :=
    fun c hc => Nat.isDigit_of_mem_toDigits (by decide) (by decide) hc
  have hnum : numeral (Nat.toDigits 10 n) = some (n : ℚ) := by
    rw [numeral_of_isDigit hd, natural_toDigits, Option.map_some]
  rcases hw : Nat.toDigits 10 n with _ | ⟨c, cs⟩
  · exact absurd hw Nat.toDigits_ne_nil
  · rw [hw] at hd hnum
    obtain ⟨hc, hcs⟩ := List.forall_mem_cons.1 hd
    have hopen : lexFrom A .start (c :: cs ++ rest) = lexFrom A (.number [c]) (cs ++ rest) := by
      simp [lexFrom, LexState.next, opening, isStart_eq_false hc, hc]
    rw [hopen, lexFrom_number hcs, List.singleton_append]
    refine lexFrom_close h ?_ (by simp [LexState.closing, hnum])
    simp [LexState.next, numeralPart]

theorem lexFrom_literal {l : Literal} (hl : l.Plain) (h : Stops rest) :
    lexFrom A .start (l.chars ++ rest) = (lexFrom A .start rest).map (l.tokens ++ ·) := by
  cases l with
  | str s =>
    have hopen : lexFrom A .start ((Literal.str s).chars ++ rest) =
        lexFrom A (.string []) (s.toList ++ '\'' :: rest) := by
      simp [Literal.chars, lexFrom, LexState.next, opening, Alphabet.isStart]
    have hclose : lexFrom A (.string s.toList) ('\'' :: rest) = lexFrom A (.quote s.toList) rest := by
      simp [lexFrom, LexState.next]
    rw [hopen, lexFrom_string hl, List.nil_append, hclose]
    exact lexFrom_close h (by simp [LexState.next]) (by simp [LexState.closing, Literal.tokens])
  | int i =>
    by_cases hi : 0 ≤ i
    · rw [Literal.chars_int, if_pos hi, lexFrom_toDigits _ h, Literal.tokens, if_pos hi]
    · have hminus : lexFrom A .start ('-' :: (Nat.toDigits 10 (-i).toNat ++ rest)) =
          (lexFrom A .start (Nat.toDigits 10 (-i).toNat ++ rest)).map ([.sym .minus] ++ ·) := by
        simp [lexFrom, LexState.next, opening, Alphabet.isStart]
      rw [Literal.chars_int, if_neg hi, List.cons_append, hminus, lexFrom_toDigits _ h,
        Literal.tokens, if_neg hi, Option.map_map]
      rfl

end

/-! ### Tests and their conjunction -/

/-- An identifier and the literal it is compared with. -/
abbrev Test := List Char × Literal

def Test.chars (t : Test) : List Char := t.1 ++ '=' :: t.2.chars

def Test.WellFormed (A : Alphabet) (t : Test) : Prop := A.isIdentifier t.1 ∧ t.2.Plain

def Test.tokens (t : Test) : List Token := .ident (String.ofList t.1) :: .sym .eq :: t.2.tokens

def Test.expr (t : Test) : Expr := .cmp .eq (.ident (String.ofList t.1)) t.2.expr

def Test.Holds (env : String → Option Value) (t : Test) : Prop :=
  env (String.ofList t.1) = some t.2.value

theorem Test.eval_expr (env : String → Option Value) (t : Test) :
    t.expr.eval env = some (.bool true) ↔ t.Holds env := by
  rcases hv : env (String.ofList t.1) with _ | v <;>
    simp [Test.expr, Test.Holds, Expr.eval, Literal.eval_expr, hv, Value.cmp]

/-- The text of a conjunction. -/
def conjunctionChars (t : Test) (ts : List Test) : List Char :=
  t.chars ++ ts.flatMap fun t => ' ' :: 'A' :: 'N' :: 'D' :: ' ' :: t.chars

def conjunctionTokens (t : Test) (ts : List Test) : List Token :=
  t.tokens ++ ts.flatMap fun t => .kw .and_ :: t.tokens

def conjunction (t : Test) (ts : List Test) : Expr :=
  ts.foldl (fun e t => .and e t.expr) t.expr

section
variable {A : Alphabet}

theorem lexFrom_test {rest : List Char} {t : Test} (ht : t.WellFormed A) (h : Stops rest) :
    lexFrom A .start (t.chars ++ rest) = (lexFrom A .start rest).map (t.tokens ++ ·) := by
  rw [Test.chars, List.append_assoc, List.cons_append, lexFrom_ident ht.1,
    lexFrom_literal ht.2 h, Option.map_map]
  rfl

theorem lexFrom_conjuncts {ts : List Test} (h : ∀ t ∈ ts, t.WellFormed A) :
    Stops (ts.flatMap fun t => ' ' :: 'A' :: 'N' :: 'D' :: ' ' :: t.chars) ∧
      lexFrom A .start (ts.flatMap fun t => ' ' :: 'A' :: 'N' :: 'D' :: ' ' :: t.chars) =
        some (ts.flatMap fun t => .kw .and_ :: t.tokens) := by
  induction ts with
  | nil => exact ⟨.inl rfl, rfl⟩
  | cons t ts ih =>
    obtain ⟨ht, hts⟩ := List.forall_mem_cons.1 h
    obtain ⟨hstop, hlex⟩ := ih hts
    refine ⟨.inr ⟨_, rfl⟩, ?_⟩
    simp only [List.flatMap_cons, List.cons_append]
    rw [lexFrom_and, lexFrom_test ht hstop, hlex]
    rfl

theorem lexFrom_conjunction {t : Test} {ts : List Test} (h : ∀ u ∈ t :: ts, u.WellFormed A) :
    lexFrom A .start (conjunctionChars t ts) = some (conjunctionTokens t ts) := by
  obtain ⟨ht, hts⟩ := List.forall_mem_cons.1 h
  obtain ⟨hstop, hlex⟩ := lexFrom_conjuncts hts
  rw [conjunctionChars, lexFrom_test ht hstop, hlex]
  rfl

end

/-! ### Chains -/

section
variable {op : Token → Option (Expr → Expr → Expr)} {p : Parser Expr}

/-- A chain of one operand. -/
theorem chain_stop {ts rest : List Token} {e : Expr} (hp : p ts = some (e, rest))
    (hr : ∀ t ∈ rest.head?, op t = none) : chain op p ts = some (e, rest) := by
  rw [chain, hp, Option.bind_some]
  cases rest with
  | nil => rfl
  | cons t ts =>
    have ht : op t = none := hr t rfl
    simp [chainFrom, ht]

/-- A chain of operands that each end where the next operator begins. -/
theorem chainFrom_flatMap {α : Type} {t : Token} {f : Expr → Expr → Expr} (ht : op t = some f)
    (tokens : α → List Token) (expr : α → Expr) {as : List α}
    (hp : ∀ a ∈ as, ∀ rest : List Token, (∀ u ∈ rest.head?, u = t) →
      p (tokens a ++ rest) = some (expr a, rest)) :
    ∀ (n : ℕ) (e : Expr), as.length ≤ n →
      chainFrom op p n e (as.flatMap fun a => t :: tokens a) =
        some (as.foldl (fun e a => f e (expr a)) e, []) := by
  induction as with
  | nil =>
    intro n e hn
    cases n <;> rfl
  | cons a as ih =>
    intro n e hn
    obtain ⟨ha, has⟩ := List.forall_mem_cons.1 hp
    cases n with
    | zero => simp at hn
    | succ n =>
      have hhead : ∀ u ∈ (as.flatMap fun a => t :: tokens a).head?, u = t := by
        cases as <;> simp
      rw [List.flatMap_cons, List.cons_append]
      simp only [chainFrom, ht]
      rw [ha _ hhead, Option.bind_some]
      exact ih has n _ (by simpa using hn)

end

/-! ### Tests are parsed back -/

section
variable (expr : Parser Expr) {rest : List Token}

/-- What may follow a test. -/
def Ends (rest : List Token) : Prop := ∀ t ∈ rest.head?, t = .kw .and_

theorem sum_of_unary {ts : List Token} {e : Expr} (h : unary expr ts = some (e, rest))
    (hr : ∀ t ∈ rest.head?, mulOp t = none ∧ addOp t = none) : sum expr ts = some (e, rest) :=
  chain_stop (chain_stop h fun t ht => (hr t ht).1) fun t ht => (hr t ht).2

theorem sum_literal (l : Literal) (h : Ends rest) :
    sum expr (l.tokens ++ rest) = some (l.expr, rest) := by
  refine sum_of_unary expr ?_ fun t ht => ?_
  · cases l with
    | str s => rfl
    | int i => by_cases hi : 0 ≤ i <;> simp [Literal.tokens, Literal.expr, hi, unary, primary]
  · rw [h t ht]
    exact ⟨rfl, rfl⟩

theorem negation_test (t : Test) (h : Ends rest) :
    negation expr (t.tokens ++ rest) = some (t.expr, rest) := by
  have hname : sum expr (t.tokens ++ rest) =
      some (.ident (String.ofList t.1), .sym .eq :: (t.2.tokens ++ rest)) := by
    refine sum_of_unary expr rfl fun u hu => ?_
    rw [List.head?_cons, Option.mem_some_iff] at hu
    subst hu
    exact ⟨rfl, rfl⟩
  have hneg : negation expr (t.tokens ++ rest) = comparison expr (t.tokens ++ rest) := rfl
  rw [hneg, comparison, hname, Option.bind_some]
  simp [comparisonFrom, cmpOp, sum_literal expr t.2 h, Test.expr]

theorem condition_conjunction (t : Test) (ts : List Test) :
    condition expr (conjunctionTokens t ts) = some (conjunction t ts, []) := by
  have hends : Ends (ts.flatMap fun t => .kw .and_ :: t.tokens) := by
    cases ts <;> simp [Ends]
  have hlen : ts.length ≤ (ts.flatMap fun t => Token.kw .and_ :: t.tokens).length := by
    induction ts with
    | nil => simp
    | cons u ts ih =>
      have ih' := ih (by cases ts <;> simp [Ends])
      simp only [List.flatMap_cons, List.length_append, List.length_cons]
      omega
  refine chain_stop ?_ (by simp)
  rw [chain, conjunctionTokens, negation_test expr t hends, Option.bind_some]
  exact chainFrom_flatMap rfl Test.tokens Test.expr (fun t _ rest h => negation_test expr t h) _ _ hlen

end

theorem eval_conjunction (env : String → Option Value) (t : Test) (ts : List Test) :
    (conjunction t ts).eval env = some (.bool true) ↔ ∀ u ∈ t :: ts, u.Holds env := by
  have hand (a b : Option Value) :
      and3 a b = some (.bool true) ↔ a = some (.bool true) ∧ b = some (.bool true) := by
    rcases a with _ | ⟨_ | _⟩ | _ | _ <;> rcases b with _ | ⟨_ | _⟩ | _ | _ <;> simp [and3]
  have hfold (e : Expr) : (ts.foldl (fun e t => .and e t.expr) e).eval env = some (.bool true) ↔
      e.eval env = some (.bool true) ∧ ∀ u ∈ ts, u.Holds env := by
    induction ts generalizing e with
    | nil => simp
    | cons u ts ih => simp [ih, Expr.eval, hand, Test.eval_expr, and_assoc]
  rw [conjunction, hfold, Test.eval_expr, List.forall_mem_cons]

section
variable {A : Alphabet} {text : String} {t : Test} {ts : List Test}

theorem parse_conjunction (htext : text.toList = conjunctionChars t ts)
    (h : ∀ u ∈ t :: ts, u.WellFormed A) : parse A text = some (conjunction t ts) := by
  have hne : conjunctionTokens t ts ≠ [] := by simp [conjunctionTokens, Test.tokens]
  rw [parse, lex, htext, lexFrom_conjunction h, Option.bind_some, if_neg hne, expression,
    condition_conjunction]

/-- A conjunction of tests for equality is a selector. -/
theorem valid_conjunction (htext : text.toList = conjunctionChars t ts)
    (h : ∀ u ∈ t :: ts, u.WellFormed A) : Valid A text := by
  rw [Valid, parse_conjunction htext h, Option.isSome_some]

/-- It selects the messages for which every test holds. -/
theorem selects_conjunction (htext : text.toList = conjunctionChars t ts)
    (h : ∀ u ∈ t :: ts, u.WellFormed A) (env : String → Option Value) :
    Selects A text env ↔ ∀ u ∈ t :: ts, u.Holds env := by
  rw [Selects, parse_conjunction htext h, Option.bind_some, eval_conjunction]

end

/-! ## Quotes come in pairs -/

section
variable {A : Alphabet}

def LexState.inString : LexState → Bool
  | string _ => true
  | _ => false

theorem LexState.inString_of_opening {c : Char} {r : List Token × LexState}
    (h : opening A c = some r) : r.2.inString = decide (c = '\'') := by
  unfold opening at h
  split_ifs at h with hs hd
  · have hq : c ≠ '\'' := by rintro rfl; simp [Alphabet.isStart] at hs
    simp [← Option.some.inj h, LexState.inString, hq]
  · have hq : c ≠ '\'' := by rintro rfl; exact absurd hd (by decide)
    simp [← Option.some.inj h, LexState.inString, hq]
  · split at h <;> cases h <;> rfl

theorem LexState.inString_of_turn {s : LexState} {c : Char} {r : List Token × LexState}
    (h : s.turn A c = some r) : s.inString = false ∧ r.2.inString = decide (c = '\'') := by
  obtain ⟨ts, hs, h⟩ := Option.bind_eq_some_iff.1 h
  obtain ⟨r', hr, rfl⟩ := Option.map_eq_some_iff.1 h
  have hopen : r'.2.inString = decide (c = '\'') := inString_of_opening hr
  refine ⟨?_, hopen⟩
  cases s <;> first | rfl | cases hs

/-- A quote opens a string or closes it, and nothing else does. -/
theorem LexState.inString_of_next {s : LexState} {c : Char} {r : List Token × LexState}
    (h : s.next A c = some r) : r.2.inString = (s.inString ^^ decide (c = '\'')) := by
  have hturn (h : s.turn A c = some r) : r.2.inString = (s.inString ^^ decide (c = '\'')) := by
    obtain ⟨h1, h2⟩ := inString_of_turn h
    rw [h1, h2, Bool.false_xor]
  have hpart : A.isPart '\'' = false := by simp [Alphabet.isPart]
  have hnum (w : List Char) : numeralPart w '\'' = false := by simp [numeralPart]
  cases s with
  | start => simpa [inString] using inString_of_opening h
  | word w =>
    simp only [next] at h
    split_ifs at h with hp
    · have hq : c ≠ '\'' := by rintro rfl; simp [hpart] at hp
      simp [← Option.some.inj h, inString, hq]
    · exact hturn h
  | number w =>
    simp only [next] at h
    split_ifs at h with hp
    · have hq : c ≠ '\'' := by rintro rfl; simp [hnum] at hp
      simp [← Option.some.inj h, inString, hq]
    · exact hturn h
  | string w =>
    simp only [next, Option.some.injEq] at h
    subst h
    by_cases hq : c = '\'' <;> simp [hq, inString]
  | quote w =>
    simp only [next] at h
    split_ifs at h with hq
    · simp [← Option.some.inj h, inString, hq]
    · exact hturn h
  | less =>
    simp only [next] at h
    split_ifs at h with h1 h2
    · simp [← Option.some.inj h, inString, h1]
    · simp [← Option.some.inj h, inString, h2]
    · exact hturn h
  | greater =>
    simp only [next] at h
    split_ifs at h with h1
    · simp [← Option.some.inj h, inString, h1]
    · exact hturn h

theorem even_quotes_of_lexFrom {s : LexState} {cs : List Char} {ts : List Token}
    (h : lexFrom A s cs = some ts) : Even (cs.count '\'' + s.inString.toNat) := by
  induction cs generalizing s ts with
  | nil =>
    have hs : s.inString = false := by
      cases s <;> first | rfl | cases h
    simp [hs]
  | cons c cs ih =>
    obtain ⟨r, hr, h⟩ := Option.bind_eq_some_iff.1 h
    obtain ⟨us, hus, -⟩ := Option.map_eq_some_iff.1 h
    have he := ih hus
    rw [LexState.inString_of_next hr] at he
    by_cases hq : c = '\''
    · subst hq
      rw [List.count_cons_self]
      cases hs : s.inString <;> simp [hs] at he ⊢ <;> grind
    · simpa [hq] using he

/-- A text with an odd number of quotes is no selector. -/
theorem even_quotes_of_valid {text : String} (h : Valid A text) : Even (text.toList.count '\'') := by
  rw [Valid, parse, Option.isSome_iff_exists] at h
  obtain ⟨e, he⟩ := h
  obtain ⟨ts, hts, -⟩ := Option.bind_eq_some_iff.1 he
  exact even_quotes_of_lexFrom hts

end

end Lib.Selector
