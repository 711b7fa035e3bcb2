import Treewalk.Eval.Stmt

/-!
# Rules of evaluation

What a program means, as rules. A rule says how an expression or a statement ends, given how its
parts end, and not how to find out. A program that has no ending by the rules runs for ever.

`limit` is the most bytes that repeating a string may give, if there is such a limit.
-/

namespace Treewalk.Rules

open RuntimeError (Cause)

variable (limit : Option Nat)

/-! ## Values -/

/-- All other values are true. -/
inductive Falsey : Value → Prop
  | nil : Falsey .nil
  | false : Falsey (.bool false)

inductive Equal : Value → Value → Prop
  | nil : Equal .nil .nil
  | bool {b} : Equal (.bool b) (.bool b)
  | number {x y : Float} : x == y → Equal (.number x) (.number y)
  | string {s} : Equal (.string s) (.string s)

inductive Displays : Value → String → Prop
  | nil : Displays .nil "nil"
  | true : Displays (.bool true) "true"
  | false : Displays (.bool false) "false"
  | number {x} : Displays (.number x) (Number.display x)
  | string {s} : Displays (.string s) s

/-! ## Operators -/

inductive Unary : UnaryOp → Value → Except Cause Value → Prop
  | notFalsey {v} : Falsey v → Unary .not v (.ok (.bool true))
  | notTruthy {v} : ¬ Falsey v → Unary .not v (.ok (.bool false))
  | negate {x} : Unary .negate (.number x) (.ok (.number (-x)))
  | negateOther {v} : (∀ x, v ≠ .number x) → Unary .negate v (.error .operandNotNumber)

/-- `count`, without its fraction, is `k`. A zero with a minus sign is zero. -/
inductive Counts (count : Float) : Nat → Prop
  | positive {size} : Number.form count = .finite false size → Counts count size.whole
  | zero {size} : Number.form count = .finite true size → size.significand = 0 → Counts count 0

inductive NoCount (count : Float) : Prop
  | nan : Number.form count = .nan → NoCount count
  | infinite {negative} : Number.form count = .infinite negative → NoCount count
  | negative {size} : Number.form count = .finite true size → size.significand ≠ 0 → NoCount count

inductive Repeats (s : String) (count : Float) : Except Cause Value → Prop
  | invalid : NoCount count → Repeats s count (.error .invalidRepeatCount)
  | tooLarge {k most} : Counts count k → limit = some most → most < s.utf8ByteSize * k →
    Repeats s count (.error .repeatTooLarge)
  | repeated {k} : Counts count k → (∀ most, limit = some most → s.utf8ByteSize * k ≤ most) →
    Repeats s count (.ok (.string (String.join (List.replicate k s))))

/-- The operators that have a meaning for numbers alone. -/
inductive Arithmetic : BinaryOp → Float → Float → Value → Prop
  | subtract {x y} : Arithmetic .subtract x y (.number (x - y))
  | greater {x y} : Arithmetic .greater x y (.bool (x > y))
  | greaterEqual {x y} : Arithmetic .greaterEqual x y (.bool (x ≥ y))
  | less {x y} : Arithmetic .less x y (.bool (x < y))
  | lessEqual {x y} : Arithmetic .lessEqual x y (.bool (x ≤ y))

def NotNumbers (a b : Value) : Prop := ∀ x y, ¬ (a = .number x ∧ b = .number y)

/-- A divisor that is exactly zero. -/
def IsZero (v : Value) : Prop := ∃ x : Float, v = .number x ∧ x == 0

/-- What the operators with a string among their operands are for. -/
def Mixed (a b : Value) : Prop := (∃ s x, a = .string s ∧ b = .number x) ∨
  ∃ x s, a = .number x ∧ b = .string s

inductive Binary : BinaryOp → Value → Value → Except Cause Value → Prop
  | arithmetic {op x y v} : Arithmetic op x y v → Binary op (.number x) (.number y) (.ok v)
  | arithmeticOther {op a b} : (∃ x y v, Arithmetic op x y v) → NotNumbers a b →
    Binary op a b (.error .operandsNotNumbers)
  | sum {x y} : Binary .add (.number x) (.number y) (.ok (.number (x + y)))
  | concat {s t} : Binary .add (.string s) (.string t) (.ok (.string (s ++ t)))
  | concatNumber {s y} :
    Binary .add (.string s) (.number y) (.ok (.string (s ++ Number.display y)))
  | numberConcat {x t} :
    Binary .add (.number x) (.string t) (.ok (.string (Number.display x ++ t)))
  | addOther {a b} : NotNumbers a b → ¬ Mixed a b → (∀ s t, ¬ (a = .string s ∧ b = .string t)) →
    Binary .add a b (.error .invalidAddOperands)
  | product {x y} : Binary .multiply (.number x) (.number y) (.ok (.number (x * y)))
  | repeated {s y r} : Repeats limit s y r → Binary .multiply (.string s) (.number y) r
  | repeatedLeft {x t r} : Repeats limit t x r → Binary .multiply (.number x) (.string t) r
  | multiplyOther {a b} : NotNumbers a b → ¬ Mixed a b →
    Binary .multiply a b (.error .operandsNotNumbers)
  | byZero {a b} : IsZero b → Binary .divide a b (.error .divisionByZero)
  | quotient {x y} : ¬ IsZero (.number y) →
    Binary .divide (.number x) (.number y) (.ok (.number (x / y)))
  | divideOther {a b} : ¬ IsZero b → NotNumbers a b →
    Binary .divide a b (.error .operandsNotNumbers)
  | equal {a b} : Equal a b → Binary .equal a b (.ok (.bool true))
  | unequal {a b} : ¬ Equal a b → Binary .equal a b (.ok (.bool false))
  | notEqual {a b} : ¬ Equal a b → Binary .notEqual a b (.ok (.bool true))
  | notUnequal {a b} : Equal a b → Binary .notEqual a b (.ok (.bool false))

/-- The left operand decides, and the right one is not evaluated. -/
inductive Decides : LogicalOp → Value → Prop
  | and {v} : Falsey v → Decides .and v
  | or {v} : ¬ Falsey v → Decides .or v

/-! ## Variables -/

/-- `frame` is the innermost frame that defines the name. -/
structure Innermost (x : String) (frames inner : List Frame) (frame : Frame)
    (outer : List Frame) : Prop where
  split : frames = inner ++ frame :: outer
  defines : Frame.has x frame
  inside : ∀ other ∈ inner, ¬ Frame.has x other

def Undefined (x : String) (env : Environment) : Prop := ∀ frame ∈ env.frames, ¬ Frame.has x frame

def Binds (x : String) (v : Value) (env env' : Environment) : Prop :=
  ∃ frame outer, env.frames = frame :: outer ∧ env'.frames = Frame.put x v frame :: outer

def Assigns (x : String) (v : Value) (env env' : Environment) : Prop :=
  ∃ inner frame outer, Innermost x env.frames inner frame outer ∧
    env'.frames = inner ++ Frame.put x v frame :: outer

/-! ## Expressions -/

/-- What an expression ends in, and the variables after it. Its error, if it ends in one, is the
first of its parts, and no part after that is evaluated. -/
inductive Evaluates : Environment → Expr → Except RuntimeError Value → Environment → Prop
  | literal {env v} : Evaluates env (.literal v) (.ok v) env
  | grouping {env inner r env'} : Evaluates env inner r env' → Evaluates env (.grouping inner) r env'
  | unary {env op t operand v w env'} : Evaluates env operand (.ok v) env' → Unary op v (.ok w) →
    Evaluates env (.unary op t operand) (.ok w) env'
  | unaryFails {env op t operand v cause env'} : Evaluates env operand (.ok v) env' →
    Unary op v (.error cause) → Evaluates env (.unary op t operand) (.error ⟨t, cause⟩) env'
  | unaryStops {env op t operand error env'} : Evaluates env operand (.error error) env' →
    Evaluates env (.unary op t operand) (.error error) env'
  | binary {env op t left right a b v mid env'} : Evaluates env left (.ok a) mid →
    Evaluates mid right (.ok b) env' → Binary limit op a b (.ok v) →
    Evaluates env (.binary op t left right) (.ok v) env'
  | binaryFails {env op t left right a b cause mid env'} : Evaluates env left (.ok a) mid →
    Evaluates mid right (.ok b) env' → Binary limit op a b (.error cause) →
    Evaluates env (.binary op t left right) (.error ⟨t, cause⟩) env'
  | binaryStopsLeft {env op t left right error env'} : Evaluates env left (.error error) env' →
    Evaluates env (.binary op t left right) (.error error) env'
  | binaryStopsRight {env op t left right a error mid env'} : Evaluates env left (.ok a) mid →
    Evaluates mid right (.error error) env' →
    Evaluates env (.binary op t left right) (.error error) env'
  | decided {env op t left right a env'} : Evaluates env left (.ok a) env' → Decides op a →
    Evaluates env (.logical op t left right) (.ok a) env'
  | undecided {env op t left right a r mid env'} : Evaluates env left (.ok a) mid →
    ¬ Decides op a → Evaluates mid right r env' →
    Evaluates env (.logical op t left right) r env'
  | logicalStops {env op t left right error env'} : Evaluates env left (.error error) env' →
    Evaluates env (.logical op t left right) (.error error) env'
  | var {env : Environment} {name : Token} {v inner frame outer} :
    Innermost name.lexeme env.frames inner frame outer →
    Frame.find? name.lexeme frame = some v → Evaluates env (.var name) (.ok v) env
  | varUndefined {env} {name : Token} : Undefined name.lexeme env →
    Evaluates env (.var name) (.error ⟨name, .undefinedVariable name.lexeme⟩) env
  | assign {env} {name : Token} {value v mid env'} : Evaluates env value (.ok v) mid →
    Assigns name.lexeme v mid env' → Evaluates env (.assign name value) (.ok v) env'
  | assignUndefined {env} {name : Token} {value v env'} : Evaluates env value (.ok v) env' →
    Undefined name.lexeme env' →
    Evaluates env (.assign name value) (.error ⟨name, .undefinedVariable name.lexeme⟩) env'
  | assignStops {env name value error env'} : Evaluates env value (.error error) env' →
    Evaluates env (.assign name value) (.error error) env'

/-! ## Statements -/

/-- Writes in order up to the first that is refused. -/
inductive Writes : List String → Sink → Option String → Sink → Prop
  | nil {out} : Writes [] out none out
  | taken {text texts out refused out'} : out.refusal? out.taken text = none →
    Writes texts { out with taken := text :: out.taken } refused out' →
    Writes (text :: texts) out refused out'
  | refused {text texts out reason} : out.refusal? out.taken text = some reason →
    Writes (text :: texts) out (some reason) out

/-- The writes that make a line. -/
inductive Line : String → List String → Prop
  | blank : Line "" ["\n"]
  | text {s} : s ≠ "" → Line s [s, "\n"]

/-- The expression that a statement begins with. -/
inductive Begins : Stmt → Expr → Prop
  | expression {e} : Begins (.expression e) e
  | print {keyword e} : Begins (.print keyword e) e
  | declare {name e} : Begins (.declare name (some e)) e
  | ifThen {e yes} : Begins (.ifThen e yes) e
  | ifElse {e yes no} : Begins (.ifElse e yes no) e
  | loop {e body} : Begins (.loop e body) e

mutual

/-- How a statement ends. -/
inductive Executes : Stmt → State → Ending → Prop
  | stops {s e env out error env'} : Begins s e → Evaluates limit env e (.error error) env' →
    Executes s ⟨env, out⟩ ⟨some error, ⟨env', out⟩⟩
  | expression {e env out v env'} : Evaluates limit env e (.ok v) env' →
    Executes (.expression e) ⟨env, out⟩ ⟨none, ⟨env', out⟩⟩
  | print {keyword e env out v text texts env' out'} : Evaluates limit env e (.ok v) env' →
    Displays v text → Line text texts → Writes texts out none out' →
    Executes (.print keyword e) ⟨env, out⟩ ⟨none, ⟨env', out'⟩⟩
  | printRefused {keyword e env out v text texts reason env' out'} :
    Evaluates limit env e (.ok v) env' → Displays v text → Line text texts →
    Writes texts out (some reason) out' →
    Executes (.print keyword e) ⟨env, out⟩ ⟨some ⟨keyword, .output reason⟩, ⟨env', out'⟩⟩
  | declare {name : Token} {env out env'} : Binds name.lexeme .nil env env' →
    Executes (.declare name none) ⟨env, out⟩ ⟨none, ⟨env', out⟩⟩
  | init {name : Token} {e env out v mid env'} : Evaluates limit env e (.ok v) mid →
    Binds name.lexeme v mid env' →
    Executes (.declare name (some e)) ⟨env, out⟩ ⟨none, ⟨env', out⟩⟩
  -- The frame is fresh, and it is dropped whether the body fails or not.
  | block {body} {env inside last env' : Environment} {out out' error frame} :
    inside.frames = [] :: env.frames → ExecutesAll body ⟨inside, out⟩ ⟨error, ⟨last, out'⟩⟩ →
    last.frames = frame :: env'.frames →
    Executes (.block body) ⟨env, out⟩ ⟨error, ⟨env', out'⟩⟩
  | ifTrue {e yes env out v env' ending} : Evaluates limit env e (.ok v) env' → ¬ Falsey v →
    Executes yes ⟨env', out⟩ ending → Executes (.ifThen e yes) ⟨env, out⟩ ending
  | ifFalse {e yes env out v env'} : Evaluates limit env e (.ok v) env' → Falsey v →
    Executes (.ifThen e yes) ⟨env, out⟩ ⟨none, ⟨env', out⟩⟩
  | elseTrue {e yes no env out v env' ending} : Evaluates limit env e (.ok v) env' → ¬ Falsey v →
    Executes yes ⟨env', out⟩ ending → Executes (.ifElse e yes no) ⟨env, out⟩ ending
  | elseFalse {e yes no env out v env' ending} : Evaluates limit env e (.ok v) env' → Falsey v →
    Executes no ⟨env', out⟩ ending → Executes (.ifElse e yes no) ⟨env, out⟩ ending
  | loopEnds {e body env out v env'} : Evaluates limit env e (.ok v) env' → Falsey v →
    Executes (.loop e body) ⟨env, out⟩ ⟨none, ⟨env', out⟩⟩
  | loopFails {e body env out v env' error last} : Evaluates limit env e (.ok v) env' →
    ¬ Falsey v → Executes body ⟨env', out⟩ ⟨some error, last⟩ →
    Executes (.loop e body) ⟨env, out⟩ ⟨some error, last⟩
  | loopTurns {e body env out v env' mid ending} : Evaluates limit env e (.ok v) env' →
    ¬ Falsey v → Executes body ⟨env', out⟩ ⟨none, mid⟩ → Executes (.loop e body) mid ending →
    Executes (.loop e body) ⟨env, out⟩ ending

/-- How a list of statements ends. Its first error ends it. -/
inductive ExecutesAll : List Stmt → State → Ending → Prop
  | nil {st} : ExecutesAll [] st ⟨none, st⟩
  | fails {s body st error last} : Executes s st ⟨some error, last⟩ →
    ExecutesAll (s :: body) st ⟨some error, last⟩
  | cons {s body st mid ending} : Executes s st ⟨none, mid⟩ → ExecutesAll body mid ending →
    ExecutesAll (s :: body) st ending

end

end Treewalk.Rules
