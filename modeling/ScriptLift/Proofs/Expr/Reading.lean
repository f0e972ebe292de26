import Mathlib
import ScriptLift.Expr
import ScriptLift.Opcode
import ScriptLift.Proofs.Text.Hex
import ScriptLift.Proofs.Text.Spelling

/-!
# The text of an expression can be read

Only binary operands stand in parentheses, and yet a text tells which expression it is the text of,
as far as a text can: types and places are not written, and a negative number is written like a
positive one with an operator before it.  What a text tells is `Expr.plain`.  Expressions that are
built from names, literals and the operators of instructions (`Expr.Readable`) have the same text
exactly if they are the same in this sense (`Expr.text_eq_iff`).

The proof is a reader (`Expr.read?`), which goes by what stands at the front of a text.  A minus and
an exclamation mark are operators, and a quote starts a string.  A parenthesis with a word in it is
a cast: in a binary expression there is a blank before anything can be closed
(`Expr.Reader.Front.not_cast`).  All else is a token, or a call if a parenthesis follows.
`Expr.Reader.reads` says that expressions are read back from any text that goes on in a way that
cannot belong to them, one case for each constructor.
-/

namespace ScriptLift

namespace Expr

/-! ### What is written of an expression -/

mutual

/-- The expression as far as its text tells: without types and places, without a base for what is no
number, and with the sign of a decimal number as an operator. -/
def plain : Expr → Expr
  | literal (.int n) _ true => literal (.int n) .unknown true
  | literal (.int n) _ false =>
    if n < 0 then unary "-" (literal (.int (-n)) .unknown false) .unknown
    else literal (.int n) .unknown false
  | literal v _ _ => literal v .unknown false
  | var r => var (.loose r.name)
  | binary l op r _ => binary l.plain op r.plain .unknown
  | unary op e _ => unary op e.plain .unknown
  | call name args _ => call name (plains args) .unknown

/-- The plain forms of arguments. -/
def plains : List Expr → List Expr
  | [] => []
  | e :: es => e.plain :: plains es

end

theorem texts_eq_map (es : List Expr) : texts es = es.map text := by
  induction es with
  | nil => rfl
  | cons e es ih => rw [texts, ih, List.map_cons]

theorem plains_eq_map (es : List Expr) : plains es = es.map plain := by
  induction es with
  | nil => rfl
  | cons e es ih => rw [plains, ih, List.map_cons]

/-- A letter, a digit or an underscore. -/
def isWordChar (c : Char) : Bool :=
  c.isAlphanum || c = '_'

/-- An identifier that is no truth value. -/
def isName (s : String) : Bool :=
  s.toList.head?.any (!·.isDigit) && s.toList.all isWordChar && s ≠ "true" && s ≠ "false"

/-- The symbol stands for an operation on two operands. -/
def IsOperator (op : String) : Prop :=
  (∃ o : IntOp, op = o.symbol) ∨ (∃ o : FloatOp, op = o.symbol) ∨ ∃ r : Relation, op = r.symbol

/-- The expression has numbers, truth values and strings for literals, names for variables and
calls, and operators that instructions have. -/
inductive Readable : Expr → Prop where
  | int (n : Int) (t : DataType) (inHex : Bool) : Readable (literal (.int n) t inHex)
  | bool (b : Bool) (t : DataType) (inHex : Bool) : Readable (literal (.bool b) t inHex)
  | string (s : String) (t : DataType) (inHex : Bool) : Readable (literal (.string s) t inHex)
  | var {r : Reference} : isName r.name = true → Readable (var r)
  | binary {l r : Expr} {op : String} (t : DataType) :
      Readable l → IsOperator op → Readable r → Readable (binary l op r t)
  | unary {e : Expr} (o : UnaryOp) (t : DataType) : Readable e → Readable (unary o.symbol e t)
  | call {name : String} {args : List Expr} (t : DataType) :
      isName name = true → (∀ e ∈ args, Readable e) → Readable (call name args t)

/-- Parentheses are put around an expression by its shape, which the plain form keeps. -/
theorem wrap_plain (e : Expr) (s : String) : e.plain.wrap s = e.wrap s := by
  cases e with
  | literal v t inHex =>
      cases v with
      | int n =>
          cases inHex with
          | true => rfl
          | false =>
              rw [plain]
              split <;> rfl
      | float | string | bool | absent => rfl
  | var | binary | unary | call => rfl

/-- A literal is written by its value, whatever type it was given. -/
theorem text_plain_literal (v : Literal) (t : DataType) (inHex : Bool) :
    (literal v t inHex).plain.text = (literal v t inHex).text := by
  cases v with
  | int n =>
      cases inHex with
      | true => rfl
      | false =>
          rw [plain]
          split
          · rename_i hn
            obtain ⟨m, rfl⟩ := Int.eq_negSucc_of_lt_zero hn
            rfl
          · rfl
  | float | string | bool | absent => rfl

mutual

/-- **What is left of an expression has its text.** -/
theorem text_plain : ∀ e : Expr, e.plain.text = e.text
  | literal v t inHex => text_plain_literal v t inHex
  | var r => rfl
  | binary l op r t => by rw [plain, text, text, wrap_plain, wrap_plain, text_plain l, text_plain r]
  | unary op e t => by rw [plain, text, text, wrap_plain, text_plain e]
  | call name args t => by rw [plain, text, text, texts_plains args]

/-- The texts of arguments are those of their plain forms. -/
theorem texts_plains : ∀ es : List Expr, texts (plains es) = texts es
  | [] => rfl
  | e :: es => by rw [plains, texts, texts, text_plain e, texts_plains es]

end

/-! ### Reading -/

namespace Reader

/-- The expression that a number in base sixteen stands for, the sign behind the mark. -/
def hexLiteral : List Char → Expr
  | '-' :: ds => literal (.int (-(Number.ofNumeral 16 ds))) .unknown true
  | ds => literal (.int (Number.ofNumeral 16 ds)) .unknown true

/-- The expression that a number, a truth value or a name stands for. -/
def ofToken (w : List Char) : Expr :=
  if w.head?.any (·.isDigit) then
    if w.take 2 = ['0', 'x'] then hexLiteral (w.drop 2)
    else literal (.int (Number.ofNumeral 10 w)) .unknown false
  else if w = "true".toList then literal (.bool true) .unknown false
  else if w = "false".toList then literal (.bool false) .unknown false
  else var (.loose (.ofList w))

/-- What a token is made of; a minus may stand behind the mark of a base. -/
def isTokenChar (c : Char) : Bool :=
  isWordChar c || c = '-'

/-- What is read at the front of a text, and what stands behind it. -/
abbrev Scan (α : Type) : Type :=
  List Char → Option (α × List Char)

/-- An operand, or two with an operator between them. -/
def expressionOf (operand : Scan Expr) : Scan Expr := fun cs =>
  match operand cs with
  | some (l, ' ' :: rest) =>
    match rest.dropWhile (· ≠ ' ') with
    | ' ' :: behind => (operand behind).map fun out =>
      (binary l (.ofList (rest.takeWhile (· ≠ ' '))) out.1 .unknown, out.2)
    | _ => none
  | out => out

/-- Expressions with commas between them, up to the closing parenthesis. -/
def argumentsOf (expression : Scan Expr) : Nat → Scan (List Expr)
  | 0, _ => none
  | n + 1, cs =>
    match expression cs with
    | some (e, ',' :: ' ' :: rest) =>
      (argumentsOf expression n rest).map fun out => (e :: out.1, out.2)
    | some (e, ')' :: rest) => some ([e], rest)
    | _ => none

/-- What stands behind an opening parenthesis: the type of a cast and what is cast, or an
expression. -/
def parenOf (operand : Scan Expr) : Scan Expr := fun cs =>
  match cs.dropWhile isWordChar with
  | ')' :: rest => (operand rest).map fun out =>
    (unary ("(" ++ .ofList (cs.takeWhile isWordChar) ++ ")") out.1 .unknown, out.2)
  | _ =>
    match expressionOf operand cs with
    | some (e, ')' :: rest) => some (e, rest)
    | _ => none

/-- A token on its own, or the name of a call and its arguments. -/
def wordOf (operand : Scan Expr) : Scan Expr := fun cs =>
  match cs.dropWhile isTokenChar with
  | '(' :: ')' :: rest => some (call (.ofList (cs.takeWhile isTokenChar)) [] .unknown, rest)
  | '(' :: rest => (argumentsOf (expressionOf operand) rest.length rest).map fun out =>
    (call (.ofList (cs.takeWhile isTokenChar)) out.1 .unknown, out.2)
  | rest => some (ofToken (cs.takeWhile isTokenChar), rest)

/-- An operand whose own operands are read by `operand`. -/
def operandOf (operand : Scan Expr) : Scan Expr
  | '-' :: cs => (operand cs).map fun out => (unary "-" out.1 .unknown, out.2)
  | '!' :: cs => (operand cs).map fun out => (unary "!" out.1 .unknown, out.2)
  | '(' :: cs => parenOf operand cs
  | '"' :: cs =>
    match JsonValue.stringFrom [] cs with
    | .ok (points, rest) => some (literal (.string (CodeText.text ⟨points⟩)) .unknown false, rest)
    | .error _ => none
  | cs => wordOf operand cs

/-- An operand in which operands stand inside each other less than `n` deep. -/
def operand : Nat → Scan Expr
  | 0 => fun _ => none
  | n + 1 => operandOf (operand n)

end Reader

/-- The expression that a text is the text of, if it is one. -/
def read? (s : String) : Option Expr :=
  match Reader.expressionOf (Reader.operand s.length) s.toList with
  | some (e, []) => some e
  | _ => none

namespace Reader

/-! ### Tokens -/

/-- What stands behind an operand and cannot belong to it. -/
def Ends (rest : List Char) : Prop :=
  ∀ c ∈ rest.head?, c = ' ' ∨ c = ')' ∨ c = ','

/-- What stands behind an expression and cannot belong to it. -/
def Stops (rest : List Char) : Prop :=
  ∀ c ∈ rest.head?, c = ')' ∨ c = ','

/-- A blank, a closing parenthesis or a comma ends a token. -/
theorem ends_cons {c : Char} (h : c = ' ' ∨ c = ')' ∨ c = ',') (cs : List Char) :
    Ends (c :: cs) := by
  intro d hd
  rwa [← Option.some.inj hd]

/-- A closing parenthesis or a comma ends an expression. -/
theorem stops_cons {c : Char} (h : c = ')' ∨ c = ',') (cs : List Char) : Stops (c :: cs) := by
  intro d hd
  rwa [← Option.some.inj hd]

/-- What ends an expression ends its last token. -/
theorem Stops.ends {rest : List Char} (h : Stops rest) : Ends rest :=
  fun c hc => Or.inr (h c hc)

/-- A run of characters of one kind ends where the first of another kind stands. -/
theorem run_append {p : Char → Bool} {w rest : List Char} (hw : ∀ c ∈ w, p c = true)
    (hrest : ∀ c ∈ rest.head?, p c = false) :
    (w ++ rest).takeWhile p = w ∧ (w ++ rest).dropWhile p = rest := by
  rw [List.takeWhile_append_of_pos hw, List.dropWhile_append_of_pos hw]
  cases rest with
  | nil => simp
  | cons c rest => simp [hrest c rfl]

/-- A run of characters is cut where the first other one stands. -/
theorem run_append_cons {p : Char → Bool} {w : List Char} (c : Char) (hw : ∀ c ∈ w, p c = true)
    (hc : p c = false) (rest : List Char) :
    (w ++ c :: rest).takeWhile p = w ∧ (w ++ c :: rest).dropWhile p = c :: rest :=
  run_append hw (by simpa using hc)

theorem isTokenChar_of_isWordChar {c : Char} (h : isWordChar c = true) : isTokenChar c = true := by
  simp [isTokenChar, h]

/-- No token goes on into what ends it. -/
theorem Ends.isTokenChar {rest : List Char} (h : Ends rest) :
    ∀ c ∈ rest.head?, isTokenChar c = false := by
  intro c hc
  rcases h c hc with rfl | rfl | rfl <;> decide

/-- A token is a run of its characters and does not start with a sign. -/
structure IsToken (w : List Char) : Prop where
  chars : ∀ c ∈ w, isTokenChar c = true
  head : ∃ c cs, w = c :: cs ∧ isWordChar c = true

/-- What starts with a letter, a digit or an underscore starts with a token. -/
theorem operandOf_of_isWordChar (operand : Scan Expr) {c : Char}
    (h : isWordChar c = true) (cs : List Char) :
    operandOf operand (c :: cs) = wordOf operand (c :: cs) := by
  have hne : ∀ d, isWordChar d = false → c ≠ d := by
    intro d hd hcd
    rw [hcd, hd] at h
    cases h
  rw [operandOf]
  · exact fun _ hc => hne '-' (by decide) (List.cons.inj hc).1
  · exact fun _ hc => hne '!' (by decide) (List.cons.inj hc).1
  · exact fun _ hc => hne '(' (by decide) (List.cons.inj hc).1
  · exact fun _ hc => hne '"' (by decide) (List.cons.inj hc).1

/-- A token is read up to its end, whatever is nested in operands. -/
theorem operandOf_token (operand : Scan Expr) {w rest : List Char}
    (hw : IsToken w) (hrest : Ends rest) :
    operandOf operand (w ++ rest) = some (ofToken w, rest) := by
  obtain ⟨htake, hdrop⟩ := run_append hw.chars hrest.isTokenChar
  obtain ⟨c, cs, rfl, hc⟩ := hw.head
  rw [List.cons_append] at htake hdrop ⊢
  rw [operandOf_of_isWordChar operand hc, wordOf, htake, hdrop]
  cases rest with
  | nil => rfl
  | cons d rest => rcases hrest d rfl with rfl | rfl | rfl <;> rfl

/-! ### Numbers and names -/

/-- A name has word characters only, starts with no digit, and is none of the two truth values. -/
theorem isName_spec {s : String} (h : isName s = true) :
    (∀ c ∈ s.toList, isWordChar c = true) ∧ (∃ c cs, s.toList = c :: cs ∧ c.isDigit = false) ∧
      s ≠ "true" ∧ s ≠ "false" := by
  simp only [isName, Bool.and_eq_true, Option.any_eq_true, Bool.not_eq_true', List.all_eq_true,
    decide_eq_true_eq] at h
  obtain ⟨⟨⟨⟨c, hc, hdigit⟩, hall⟩, htrue⟩, hfalse⟩ := h
  obtain ⟨cs, hcs⟩ := List.head?_eq_some_iff.mp hc
  exact ⟨hall, ⟨c, cs, hcs, hdigit⟩, htrue, hfalse⟩

/-- Word characters make a token. -/
theorem isToken_of_isWordChar {w : List Char} (hne : w ≠ []) (h : ∀ c ∈ w, isWordChar c = true) :
    IsToken w := by
  obtain ⟨c, cs, rfl⟩ := List.exists_cons_of_ne_nil hne
  exact ⟨fun d hd => isTokenChar_of_isWordChar (h d hd), c, cs, rfl, h c List.mem_cons_self⟩

/-- A name is read as a variable. -/
theorem ofToken_name {s : String} (h : isName s = true) : ofToken s.toList = var (.loose s) := by
  obtain ⟨-, ⟨c, cs, hcs, hdigit⟩, htrue, hfalse⟩ := isName_spec h
  have hhead : s.toList.head?.any (·.isDigit) = false := by
    rw [hcs, List.head?_cons, Option.any_some, hdigit]
  rw [ofToken, hhead, if_neg Bool.false_ne_true, if_neg (fun he => htrue (String.toList_inj.mp he)),
    if_neg (fun he => hfalse (String.toList_inj.mp he)), String.ofList_toList]

theorem isWordChar_of_isDigit {c : Char} (h : c.isDigit = true) : isWordChar c = true := by
  simp [isWordChar, Char.isAlphanum, h]

/-- Decimal digits are read as the number they write. -/
theorem ofToken_decimal (m : Nat) :
    ofToken (Nat.toDigits 10 m) = literal (.int m) .unknown false := by
  have hdigits : ∀ c ∈ Nat.toDigits 10 m, c.isDigit = true :=
    fun c hc => Nat.isDigit_of_mem_toDigits (by decide) (by decide) hc
  have hhead : (Nat.toDigits 10 m).head?.any (·.isDigit) = true := by
    obtain ⟨c, cs, hcs⟩ := List.exists_cons_of_ne_nil (Nat.toDigits_ne_nil (n := m) (b := 10))
    rw [hcs, List.head?_cons, Option.any_some]
    exact hdigits c (hcs ▸ List.mem_cons_self)
  have hmark : (Nat.toDigits 10 m).take 2 ≠ ['0', 'x'] := by
    intro h
    have hx : 'x' ∈ (Nat.toDigits 10 m).take 2 := by
      rw [h]
      simp
    exact absurd (hdigits 'x' (List.mem_of_mem_take hx)) (by decide)
  rw [ofToken, hhead, if_pos rfl, if_neg hmark, Number.ofNumeral_decimal]

theorem isWordChar_of_mem_hexDigits {m : Nat} : ∀ c ∈ Text.hexDigits m, isWordChar c = true := by
  have hdigit : ∀ d < 16, isWordChar d.digitChar.toUpper = true := by decide
  induction m using Nat.strongRecOn with
  | ind m ih =>
    by_cases hm : m < 16
    · rw [Text.hexDigits_of_lt hm]
      simpa using hdigit m hm
    · rw [Text.hexDigits_of_le (Nat.le_of_not_lt hm)]
      intro c hc
      rcases List.mem_append.mp hc with hc | hc
      · exact ih (m / 16) (by omega) c hc
      · rw [List.mem_singleton.mp hc]
        exact hdigit _ (Nat.mod_lt m (by decide))

/-- A number in base sixteen: the mark, a sign if it is negative, and its digits. -/
def hexToken : Int → List Char
  | .ofNat m => '0' :: 'x' :: Text.hexDigits m
  | .negSucc m => '0' :: 'x' :: '-' :: Text.hexDigits (m + 1)

/-- The characters of a number in base sixteen. -/
theorem toList_hex (n : Int) : ("0x" ++ Text.hex 0 n).toList = hexToken n := by
  cases n with
  | ofNat m | negSucc m => simp [Text.hex, Text.zeroPad, hexToken]

/-- A number in base sixteen is one token, its sign behind the mark included. -/
theorem isToken_hexToken (n : Int) : IsToken (hexToken n) := by
  have hdigits : ∀ m, ∀ c ∈ Text.hexDigits m, isTokenChar c = true :=
    fun m c hc => isTokenChar_of_isWordChar (isWordChar_of_mem_hexDigits c hc)
  cases n with
  | ofNat m =>
      refine ⟨?_, '0', _, rfl, by decide⟩
      simpa [hexToken] using ⟨by decide, by decide, hdigits m⟩
  | negSucc m =>
      refine ⟨?_, '0', _, rfl, by decide⟩
      simpa [hexToken] using ⟨by decide, by decide, by decide, hdigits (m + 1)⟩

/-- A number in base sixteen is read back with its sign. -/
theorem ofToken_hexToken (n : Int) : ofToken (hexToken n) = literal (.int n) .unknown true := by
  cases n with
  | ofNat m =>
      have hhex : hexLiteral (Text.hexDigits m) = literal (.int m) .unknown true := by
        rw [hexLiteral, Number.ofNumeral_hexDigits]
        intro ds hds
        exact Text.minus_notMem_hexDigits m (hds ▸ List.mem_cons_self)
      exact hhex
  | negSucc m =>
      have hhex : hexLiteral ('-' :: Text.hexDigits (m + 1))
          = literal (.int (.negSucc m)) .unknown true := by
        rw [hexLiteral, Number.ofNumeral_hexDigits]
        rfl
      exact hhex

/-! ### Fronts of operands -/

/-- The text starts with a word, which may be all of it; what is behind the word closes nothing. -/
inductive Front : List Char → Prop where
  | word {w : List Char} : w ≠ [] → (∀ c ∈ w, isWordChar c = true) → Front w
  | mark {w : List Char} {c : Char} (cs : List Char) : (∀ c ∈ w, isWordChar c = true) →
      isWordChar c = false → c ≠ ')' → Front (w ++ c :: cs)

namespace Front

variable {cs : List Char}

/-- An operand may start with a mark other than a closing parenthesis. -/
theorem of_mark {c : Char} (cs : List Char) (hc : isWordChar c = false) (hne : c ≠ ')') :
    Front (c :: cs) :=
  .mark (w := []) cs (by simp) hc hne

/-- An operand is not empty and does not start with a closing parenthesis. -/
theorem head (h : Front cs) : ∃ c rest, cs = c :: rest ∧ c ≠ ')' := by
  have hword : ∀ {c : Char}, isWordChar c = true → c ≠ ')' := by
    intro c hc he
    rw [he] at hc
    exact absurd hc (by decide)
  cases h with
  | word hne hw =>
      obtain ⟨c, rest, rfl⟩ := List.exists_cons_of_ne_nil hne
      exact ⟨c, rest, rfl, hword (hw c List.mem_cons_self)⟩
  | @mark w c rest hw hc hne =>
      cases w with
      | nil => exact ⟨c, rest, rfl, hne⟩
      | cons d w => exact ⟨d, w ++ c :: rest, rfl, hword (hw d List.mem_cons_self)⟩

/-- A word with a parenthesis behind it is no operand of a binary expression. -/
theorem not_cast (h : Front cs) (rest : List Char) :
    ((cs ++ ' ' :: rest).dropWhile isWordChar).head? ≠ some ')' := by
  cases h with
  | word _ hw =>
      rw [(run_append_cons ' ' hw (by decide) rest).2]
      simp
  | @mark w c behind hw hc hne =>
      rw [List.append_assoc, List.cons_append, (run_append_cons c hw hc _).2]
      simpa using hne

end Front

/-- The text of an expression where it is an operand. -/
def operandText (e : Expr) : List Char :=
  (e.wrap e.text).toList

/-- As an operand, a binary expression is in parentheses. -/
theorem operandText_binary (l r : Expr) (op : String) (t : DataType) :
    operandText (binary l op r t) = '(' :: (binary l op r t).text.toList ++ [')'] := by
  simp [operandText, wrap]

/-- On its own it is not: the operator stands between two operands and two blanks. -/
theorem toList_text_binary (l r : Expr) (op : String) (t : DataType) :
    (binary l op r t).text.toList
      = operandText l ++ ' ' :: (op.toList ++ ' ' :: operandText r) := by
  simp [text, operandText]

/-- A unary operator stands right in front of its operand, also as an operand. -/
theorem operandText_unary (op : String) (e : Expr) (t : DataType) :
    operandText (unary op e t) = op.toList ++ operandText e := by
  simp [operandText, wrap, text]

/-- The arguments of a call, with commas between them. -/
def joined (args : List Expr) : List Char :=
  [',', ' '].intercalate (args.map (·.text.toList))

theorem joined_cons_cons (e d : Expr) (args : List Expr) :
    joined (e :: d :: args) = e.text.toList ++ ',' :: ' ' :: joined (d :: args) := by
  simp [joined, List.intercalate]

theorem joined_singleton (e : Expr) : joined [e] = e.text.toList := by
  simp [joined]

/-- No argument is longer than all arguments together. -/
theorem length_text_le_joined {e : Expr} {args : List Expr} (h : e ∈ args) :
    e.text.toList.length ≤ (joined args).length := by
  induction args with
  | nil => cases h
  | cons d args ih =>
      cases args with
      | nil => rw [List.mem_singleton.mp h, joined_singleton]
      | cons c args =>
          rw [joined_cons_cons, List.length_append, List.length_cons, List.length_cons]
          rcases List.mem_cons.mp h with rfl | h
          · omega
          · exact (ih h).trans (by omega)

/-- There are not more arguments than characters, the closing parenthesis included. -/
theorem length_le_length_joined (args : List Expr) (rest : List Char) :
    args.length ≤ (joined args ++ ')' :: rest).length := by
  induction args with
  | nil => exact Nat.zero_le _
  | cons e args ih =>
      cases args with
      | nil =>
          rw [List.length_append]
          exact (Nat.succ_le_succ (Nat.zero_le _)).trans (Nat.le_add_left _ _)
      | cons d args =>
          rw [joined_cons_cons]
          simp only [List.length_append, List.length_cons] at ih ⊢
          omega

theorem operandText_call (name : String) (args : List Expr) (t : DataType) :
    operandText (call name args t) = name.toList ++ '(' :: (joined args ++ [')']) := by
  simp [operandText, wrap, text, texts_eq_map, joined, String.toList_intercalate, Function.comp_def]

theorem operandText_nat (m : Nat) (t : DataType) :
    operandText (literal (.int m) t false) = Nat.toDigits 10 m :=
  Nat.toList_repr

/-- A negative number starts with its sign, and is an operand as it is. -/
theorem operandText_int (n : Int) (t : DataType) :
    (∃ m : Nat, n = m) ∨
      ∃ m : Nat, n = -(m + 1 : Nat) ∧
        operandText (literal (.int n) t false) = '-' :: Nat.toDigits 10 (m + 1) := by
  cases n with
  | ofNat m => exact .inl ⟨m, rfl⟩
  | negSucc m =>
      refine .inr ⟨m, rfl, ?_⟩
      change ("-" ++ (m + 1).repr).toList = _
      rw [String.toList_append, Nat.toList_repr]
      rfl

/-- A string is written between quotes, in plain characters. -/
theorem operandText_string (s : String) (t : DataType) (inHex : Bool) :
    operandText (literal (.string s) t inHex)
      = '"' :: (s.toList.flatMap Text.asciiChar ++ ['"']) := by
  simp [operandText, wrap, text, Literal.text, Text.asciiQuoted]

theorem isWordChar_decimal {m : Nat} : ∀ c ∈ Nat.toDigits 10 m, isWordChar c = true :=
  fun _ hc => isWordChar_of_isDigit (Nat.isDigit_of_mem_toDigits (by decide) (by decide) hc)

/-- Every readable operand starts as the reader expects one to; by cases on its shape. -/
theorem front_operandText {e : Expr} (h : Readable e) : Front (operandText e) := by
  cases h with
  | int n t inHex =>
      cases inHex with
      | false =>
          rcases operandText_int n t with ⟨m, rfl⟩ | ⟨m, -, htext⟩
          · rw [operandText_nat]
            exact .word Nat.toDigits_ne_nil isWordChar_decimal
          · rw [htext]
            exact .of_mark _ (by decide) (by decide)
      | true =>
          have htext : operandText (literal (.int n) t true) = hexToken n := toList_hex n
          rw [htext]
          cases n with
          | ofNat m =>
              refine .word (by simp [hexToken]) ?_
              simpa [hexToken] using ⟨by decide, by decide, isWordChar_of_mem_hexDigits⟩
          | negSucc m =>
              change Front (['0', 'x'] ++ '-' :: Text.hexDigits (m + 1))
              exact .mark _ (List.all_eq_true.mp (by decide)) (by decide) (by decide)
  | bool b t inHex =>
      change Front (if b then "true" else "false").toList
      cases b <;> exact .word (by decide) (List.all_eq_true.mp (by decide))
  | string s t inHex =>
      rw [operandText_string]
      exact .of_mark _ (by decide) (by decide)
  | @var r hname =>
      obtain ⟨hall, ⟨c, cs, hcs, -⟩, -⟩ := isName_spec hname
      change Front r.name.toList
      exact .word (by simp [hcs]) hall
  | binary t =>
      rw [operandText_binary]
      exact .of_mark _ (by decide) (by decide)
  | unary o t =>
      rw [operandText_unary]
      cases o <;> exact .of_mark _ (by decide) (by decide)
  | call t hname =>
      rw [operandText_call]
      exact .mark _ (isName_spec hname).1 (by decide) (by decide)

/-! ### Reading back -/

/-- The expression is read back where it is an operand, if there is fuel for its characters. -/
def OperandReads (e : Expr) : Prop :=
  ∀ n rest, (operandText e).length ≤ n → Ends rest →
    operand n (operandText e ++ rest) = some (e.plain, rest)

/-- The expression is read back on its own. -/
def ExprReads (e : Expr) : Prop :=
  ∀ n rest, e.text.toList.length ≤ n → Stops rest →
    expressionOf (operand n) (e.text.toList ++ rest) = some (e.plain, rest)

section Cases

variable {e l r : Expr} {op : String} {w : List Char} {args : List Expr}

/-- An operand that is written as one token is read back if the token is. -/
theorem operandReads_token (hw : IsToken w) (htext : operandText e = w)
    (hplain : ofToken w = e.plain) :
    OperandReads e := by
  intro n rest hn hrest
  obtain ⟨c, cs, hcs, -⟩ := hw.head
  rw [htext] at hn ⊢
  cases n with
  | zero => simp [hcs] at hn
  | succ n => rw [operand, operandOf_token _ hw hrest, hplain]

theorem plain_nat (m : Nat) (t : DataType) :
    (literal (.int m) t false).plain = literal (.int m) .unknown false := by
  rw [plain, if_neg (Int.not_lt.mpr (Int.natCast_nonneg m))]

theorem operandReads_nat (m : Nat) (t : DataType) : OperandReads (literal (.int m) t false) :=
  operandReads_token (isToken_of_isWordChar Nat.toDigits_ne_nil isWordChar_decimal)
    (operandText_nat m t) ((ofToken_decimal m).trans (plain_nat m t).symm)

/-- An integer is read back: without a sign as a token, with one as a sign in front of a token. -/
theorem operandReads_int (n : Int) (t : DataType) : OperandReads (literal (.int n) t false) := by
  rcases operandText_int n t with ⟨m, rfl⟩ | ⟨m, rfl, htext⟩
  · exact operandReads_nat m t
  intro k rest hk hrest
  rw [htext] at hk ⊢
  cases k with
  | zero => simp at hk
  | succ k =>
      have hdigits : operand k (Nat.toDigits 10 (m + 1) ++ rest)
          = some (literal (.int (m + 1 : Nat)) .unknown false, rest) := by
        have hread := operandReads_nat (m + 1) .unknown k rest
        rw [operandText_nat, plain_nat] at hread
        exact hread (Nat.le_of_succ_le_succ hk) hrest
      rw [operand, List.cons_append, operandOf, hdigits, plain, if_pos (by omega), neg_neg]
      rfl

/-- A word in parentheses is a cast of what stands behind it. -/
theorem parenOf_cast {operand : Scan Expr} {cs rest : List Char}
    (hw : ∀ c ∈ w, isWordChar c = true) (h : operand cs = some (e, rest)) :
    parenOf operand (w ++ ')' :: cs)
      = some (unary ("(" ++ .ofList w ++ ")") e .unknown, rest) := by
  obtain ⟨htake, hdrop⟩ := run_append_cons ')' hw (by decide) cs
  simp only [parenOf, htake, hdrop, h, Option.map_some]

/-- A sign or a cast in front of an operand that is read back. -/
theorem operandReads_unary (h : OperandReads e) (o : UnaryOp) (t : DataType) :
    OperandReads (unary o.symbol e t) := by
  intro n rest hn hrest
  have hpos : 0 < o.symbol.toList.length := by cases o <;> decide
  rw [operandText_unary, List.length_append] at hn
  obtain ⟨n, rfl⟩ : ∃ k, n = k + 1 := ⟨n - 1, by omega⟩
  have hread : operand n (operandText e ++ rest) = some (e.plain, rest) := h n rest (by omega) hrest
  rw [operandText_unary, operand, List.append_assoc, plain]
  cases o with
  | intNot | intNeg | floatNeg =>
      change (operand n (operandText e ++ rest)).map _ = _
      rw [hread]
      rfl
  | toFloat =>
      change parenOf (operand n) ("float".toList ++ ')' :: (operandText e ++ rest)) = _
      exact parenOf_cast (List.all_eq_true.mp (by decide)) hread
  | toInt =>
      change parenOf (operand n) ("int".toList ++ ')' :: (operandText e ++ rest)) = _
      exact parenOf_cast (List.all_eq_true.mp (by decide)) hread

/-- A string is read back, whatever it contains. -/
theorem operandReads_string (s : String) (t : DataType) (inHex : Bool) :
    OperandReads (literal (.string s) t inHex) := by
  intro n rest hn _
  rw [operandText_string] at hn ⊢
  cases n with
  | zero => simp at hn
  | succ n =>
      have hstring : JsonValue.stringFrom [] (s.toList.flatMap Text.asciiChar ++ ['"'] ++ rest)
          = .ok (s.toList.map .char, rest) := by
        rw [List.append_assoc, List.singleton_append, JsonValue.stringFrom_ascii]
      have htext : CodeText.text ⟨s.toList.map .char⟩ = s := CodeText.text_ofString s
      rw [operand, List.cons_append, operandOf, hstring]
      simp [htext, plain]

/-- An expression that has no parentheses as an operand is read as one. -/
theorem exprReads_of_operandReads (h : OperandReads e) (hwrap : e.wrap e.text = e.text) :
    ExprReads e := by
  intro n rest hn hrest
  have htext : operandText e = e.text.toList := by rw [operandText, hwrap]
  have hread := h n rest (htext ▸ hn) hrest.ends
  rw [htext] at hread
  rw [expressionOf, hread]
  cases rest with
  | nil => rfl
  | cons c rest => rcases hrest c rfl with rfl | rfl <;> rfl

theorem ne_blank_of_isOperator (h : IsOperator op) : ∀ c ∈ op.toList, decide (c ≠ ' ') = true := by
  rw [← List.all_eq_true]
  rcases h with ⟨o, rfl⟩ | ⟨o, rfl⟩ | ⟨o, rfl⟩ <;> cases o <;> decide

/-- Two operands that are read back, with an operator between them. -/
theorem exprReads_binary (hl : OperandReads l) (hop : IsOperator op) (hr : OperandReads r)
    (t : DataType) : ExprReads (binary l op r t) := by
  intro n rest hn hrest
  rw [toList_text_binary] at hn ⊢
  simp only [List.length_append, List.length_cons] at hn
  obtain ⟨htake, hdrop⟩ := run_append_cons ' ' (ne_blank_of_isOperator hop) (by decide)
    (operandText r ++ rest)
  have hleft := hl n (' ' :: (op.toList ++ ' ' :: (operandText r ++ rest))) (by omega)
    (ends_cons (.inl rfl) _)
  have hright := hr n rest (by omega) hrest.ends
  simp only [List.append_assoc, List.cons_append]
  rw [expressionOf, hleft]
  simp only [htake, hdrop, hright, plain, Option.map_some, String.ofList_toList]

/-- The same in parentheses; they are not taken for a cast, as more than a word stands in them. -/
theorem operandReads_binary {t : DataType} (hfront : Front (operandText l))
    (h : ExprReads (binary l op r t)) : OperandReads (binary l op r t) := by
  intro n rest hn hrest
  rw [operandText_binary] at hn ⊢
  cases n with
  | zero => simp at hn
  | succ n =>
      have hlen : (binary l op r t).text.toList.length ≤ n := by
        simp only [List.length_append, List.length_cons] at hn
        omega
      have hread := h n (')' :: rest) hlen (stops_cons (.inl rfl) _)
      rw [operand, List.cons_append, List.cons_append, List.append_assoc, List.singleton_append,
        operandOf, parenOf]
      split
      · rename_i behind hdrop
        rw [toList_text_binary, List.append_assoc, List.cons_append] at hdrop
        exact absurd (by rw [hdrop]; rfl) (hfront.not_cast _)
      · simp only [hread]

/-- Arguments are read back one by one, up to the closing parenthesis. -/
theorem argumentsOf_joined {expression : Scan Expr}
    (h : ∀ e ∈ args, ∀ rest, Stops rest →
      expression (e.text.toList ++ rest) = some (e.plain, rest)) (hne : args ≠ []) (n : Nat)
    (hn : args.length ≤ n) (rest : List Char) :
    argumentsOf expression n (joined args ++ ')' :: rest) = some (args.map plain, rest) := by
  induction args generalizing n with
  | nil => exact absurd rfl hne
  | cons e args ih =>
      obtain ⟨he, hargs⟩ := List.forall_mem_cons.mp h
      obtain ⟨n, rfl⟩ : ∃ k, n = k + 1 := ⟨n - 1, by simp at hn; omega⟩
      cases args with
      | nil =>
          have hread := he (')' :: rest) (stops_cons (.inl rfl) _)
          rw [argumentsOf, joined_singleton, hread]
          rfl
      | cons d args =>
          have hrest := ih hargs (by simp) n (by simpa using hn)
          have hread :=
            he (',' :: ' ' :: (joined (d :: args) ++ ')' :: rest)) (stops_cons (.inr rfl) _)
          rw [joined_cons_cons, List.append_assoc, List.cons_append, List.cons_append, argumentsOf,
            hread]
          simp only [hrest, Option.map_some, List.map_cons]

/-- A readable text is not taken for an empty list of arguments. -/
theorem head_text (h : Readable e) : ∃ c cs, e.text.toList = c :: cs ∧ c ≠ ')' := by
  cases h with
  | int n t inHex => exact (front_operandText (.int n t inHex)).head
  | bool b t inHex => exact (front_operandText (.bool b t inHex)).head
  | string s t inHex => exact (front_operandText (.string s t inHex)).head
  | var hname => exact (front_operandText (.var hname)).head
  | binary t hl =>
      obtain ⟨c, cs, hcs, hne⟩ := (front_operandText hl).head
      rw [toList_text_binary, hcs]
      exact ⟨c, _, rfl, hne⟩
  | unary o t he => exact (front_operandText (.unary o t he)).head
  | call t hname hargs => exact (front_operandText (.call t hname hargs)).head

/-- A call whose arguments are read back. -/
theorem operandReads_call {name : String} (hname : isName name = true)
    (hargs : ∀ e ∈ args, Readable e) (h : ∀ e ∈ args, ExprReads e) (t : DataType) :
    OperandReads (call name args t) := by
  intro n rest hn _
  obtain ⟨hword, ⟨c, cs, hcs, -⟩, -⟩ := isName_spec hname
  obtain ⟨htake, hdrop⟩ := run_append_cons '(' (fun c hc => isTokenChar_of_isWordChar (hword c hc))
    (by decide) (joined args ++ ')' :: rest)
  rw [operandText_call, List.length_append, List.length_cons, List.length_append] at hn
  obtain ⟨n, rfl⟩ : ∃ k, n = k + 1 := ⟨n - 1, by omega⟩
  have hoperand : operand (n + 1) (operandText (call name args t) ++ rest)
      = wordOf (operand n) (name.toList ++ '(' :: (joined args ++ ')' :: rest)) := by
    rw [operandText_call, operand, hcs]
    simp only [List.append_assoc, List.cons_append, List.nil_append]
    exact operandOf_of_isWordChar _ (hword c (hcs ▸ List.mem_cons_self)) _
  rw [hoperand, wordOf, htake, hdrop, plain, plains_eq_map, String.ofList_toList]
  cases args with
  | nil => rfl
  | cons e args =>
      have hread := argumentsOf_joined
        (fun d hd rest hrest => h d hd n rest (by have := length_text_le_joined hd; omega) hrest)
        (List.cons_ne_nil e args) _ (length_le_length_joined (e :: args) rest) rest
      -- an argument does not start by closing the list
      obtain ⟨c, cs, hc, hne⟩ := head_text (hargs e List.mem_cons_self)
      obtain ⟨behind, hjoined⟩ : ∃ behind, joined (e :: args) ++ ')' :: rest = c :: behind := by
        cases args <;> exact ⟨_, by simp [joined, List.intercalate, hc]; rfl⟩
      rw [hjoined] at hread ⊢
      split
      · rename_i heq
        exact absurd (List.cons.inj (List.cons.inj heq).2).1 hne
      · rename_i heq
        obtain rfl := (List.cons.inj heq).2
        rw [hread]
        rfl
      · rename_i hno
        exact absurd rfl (hno _)

end Cases

/-- **Every expression that lifting can build is read back**, as an operand and on its own. -/
theorem reads {e : Expr} (h : Readable e) : OperandReads e ∧ ExprReads e := by
  induction h with
  | int n t inHex =>
      have hread : OperandReads (literal (.int n) t inHex) := by
        cases inHex with
        | false => exact operandReads_int n t
        | true => exact operandReads_token (isToken_hexToken n) (toList_hex n) (ofToken_hexToken n)
      exact ⟨hread, exprReads_of_operandReads hread rfl⟩
  | bool b t inHex =>
      have htoken : IsToken (if b then "true" else "false").toList := by
        cases b <;> exact isToken_of_isWordChar (by decide) (List.all_eq_true.mp (by decide))
      have hread : OperandReads (literal (.bool b) t inHex) :=
        operandReads_token htoken rfl (by cases b <;> rfl)
      exact ⟨hread, exprReads_of_operandReads hread rfl⟩
  | string s t inHex =>
      have hread := operandReads_string s t inHex
      exact ⟨hread, exprReads_of_operandReads hread rfl⟩
  | @var r hname =>
      obtain ⟨hword, ⟨c, cs, hcs, -⟩, -⟩ := isName_spec hname
      have hread : OperandReads (.var r) :=
        operandReads_token (isToken_of_isWordChar (by simp [hcs]) hword) rfl (ofToken_name hname)
      exact ⟨hread, exprReads_of_operandReads hread rfl⟩
  | binary t hl hop _ ihl ihr =>
      have hread := exprReads_binary ihl.1 hop ihr.1 t
      exact ⟨operandReads_binary (front_operandText hl) hread, hread⟩
  | unary o t _ ih =>
      have hread := operandReads_unary ih.1 o t
      exact ⟨hread, exprReads_of_operandReads hread rfl⟩
  | call t hname hargs ih =>
      have hread := operandReads_call hname hargs (fun e he => (ih e he).2) t
      exact ⟨hread, exprReads_of_operandReads hread rfl⟩

end Reader

/-- **A text is read as what it tells of its expression.** -/
theorem read?_text {e : Expr} (h : Readable e) : read? e.text = some e.plain := by
  have hread := (Reader.reads h).2 e.text.length [] (Nat.le_of_eq String.length_toList)
    (by simp [Reader.Stops])
  rw [List.append_nil] at hread
  rw [read?, hread]

/-- **Expressions with the same text are the same**, up to types, to where variables are stored, and
to the sign of a number. -/
theorem text_eq_iff {e₁ e₂ : Expr} (h₁ : Readable e₁) (h₂ : Readable e₂) :
    e₁.text = e₂.text ↔ e₁.plain = e₂.plain := by
  constructor
  · intro h
    have hread := read?_text h₁
    rw [h, read?_text h₂] at hread
    exact (Option.some.inj hread).symm
  · intro h
    rw [← text_plain e₁, h, text_plain e₂]

/-- The sign of a number in a list of arguments is an operator in one of two expressions and not in
the other, and a cast of a difference is no call of a routine with the name of the type. -/
theorem text_eq_iff_signed :
    let difference (a b : Expr) : Expr := binary a "-" b .int
    let text : Expr := literal (.string "f(-5, \"😀\")") .string false
    let call (five : Expr) : Expr := call "f" [difference five underflow, text] .unknown
    let e₁ :=
      unary "(int)" (difference (call (literal (.int (-5)) .int false)) (var (.static 0))) .int
    let e₂ := unary "(int)" (difference (call (unary "-" (.ofLiteral (.int 5)) .int))
      (var (.loose "static_0"))) .unknown
    let e₃ :=
      Expr.call "int" [difference (call (literal (.int (-5)) .int false)) (var (.static 0))] .int
    Readable e₁ ∧ Readable e₂ ∧ Readable e₃ ∧ e₁.text = e₂.text ∧ e₁.text ≠ e₃.text := by
  intro difference text call e₁ e₂ e₃
  have hsub : IsOperator "-" := .inl ⟨.sub, rfl⟩
  have hcall : ∀ {five : Expr}, Readable five → Readable (call five) := by
    intro five h
    refine .call _ (by decide) (List.forall_mem_cons.mpr ⟨.binary _ h hsub (.int _ _ _), ?_⟩)
    exact List.forall_mem_singleton.mpr (.string _ _ _)
  have h₁ : Readable e₁ :=
    .unary .toInt _ (.binary _ (hcall (.int _ _ _)) hsub (.var (by decide)))
  have h₂ : Readable e₂ :=
    .unary .toInt _ (.binary _ (hcall (.unary .intNeg _ (.int _ _ _))) hsub (.var (by decide)))
  have h₃ : Readable e₃ := by
    refine .call _ (by decide) (List.forall_mem_singleton.mpr ?_)
    exact .binary _ (hcall (.int _ _ _)) hsub (.var (by decide))
  refine ⟨h₁, h₂, h₃, (text_eq_iff h₁ h₂).mpr rfl, fun h => ?_⟩
  have hplain := (text_eq_iff h₁ h₃).mp h
  cases hplain

end Expr

end ScriptLift
