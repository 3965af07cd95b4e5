import Precedence.Fault

/-!
# Expressions

Expressions are trees. `Expr.print` writes one with all its parentheses, except
that a call is written without parentheses of its own. The main statements give
the text of each kind of expression and say that equality of expressions is
decidable.
-/

namespace Precedence

/-- An expression. -/
inductive Expr where
  /-- A name, such as `a`. -/
  | name (text : String)
  /-- An assignment to a name, such as `a = b`. -/
  | assign (target : String) (value : Expr)
  /-- A choice, such as `a ? b : c`. -/
  | conditional (test yes no : Expr)
  /-- An operator between two operands, such as `a + b`. -/
  | binary (left : Expr) (operator : Kind) (right : Expr)
  /-- An operator before its operand, such as `-a`. -/
  | prefixed (operator : Kind) (operand : Expr)
  /-- An operator after its operand, such as `a!`. -/
  | postfixed (operand : Expr) (operator : Kind)
  /-- A call, such as `a(b, c)`. -/
  | call (callee : Expr) (arguments : List Expr)
deriving Repr, Inhabited

namespace Expr

mutual

/-- Writes an expression after a text. -/
def appendTo (out : String) : Expr → String
  | name text => out ++ text
  | assign target value => value.appendTo (out ++ "(" ++ target ++ " = ") ++ ")"
  | conditional test yes no =>
    no.appendTo (yes.appendTo (test.appendTo (out ++ "(") ++ " ? ") ++ " : ") ++ ")"
  | binary left operator right =>
    right.appendTo (left.appendTo (out ++ "(") ++ " " ++ operator.display ++ " ") ++ ")"
  | prefixed operator operand => operand.appendTo (out ++ "(" ++ operator.display) ++ ")"
  | postfixed operand operator => operand.appendTo (out ++ "(") ++ operator.display ++ ")"
  | call callee arguments => appendEach "" (callee.appendTo out ++ "(") arguments ++ ")"

/-- Writes expressions after a text: `separator` before the first and a comma
before each of the others. -/
def appendEach (separator out : String) : List Expr → String
  | [] => out
  | expr :: rest => appendEach ", " (expr.appendTo (out ++ separator)) rest

end

/-- The text of an expression. -/
def print (expr : Expr) : String := expr.appendTo ""

/-- The name an expression consists of. -/
def name? : Expr → Option String
  | name text => some text
  | _ => none

/-- The assignment of a value to an expression, which has to be a name. -/
def assignTo (target value : Expr) (position : Position) : Except Fault Expr :=
  match target.name? with
  | some text => .ok (.assign text value)
  | none => .error ⟨.invalidAssignmentTarget, position⟩

mutual

/-- Whether two expressions are the same tree. -/
def same : Expr → Expr → Bool
  | name a, name b => a == b
  | assign a x, assign b y => a == b && x.same y
  | conditional a x p, conditional b y q => a.same b && x.same y && p.same q
  | binary a o x, binary b p y => o == p && a.same b && x.same y
  | prefixed o x, prefixed p y => o == p && x.same y
  | postfixed x o, postfixed y p => o == p && x.same y
  | call a xs, call b ys => a.same b && sameEach xs ys
  | _, _ => false

/-- Whether two lists hold the same trees in the same order. -/
def sameEach : List Expr → List Expr → Bool
  | [], [] => true
  | x :: xs, y :: ys => x.same y && sameEach xs ys
  | _, _ => false

end

mutual

/-- `same` decides equality. -/
theorem same_iff : ∀ a b : Expr, a.same b = true ↔ a = b
  | name _, b => by cases b <;> simp [same]
  | assign _ x, b => by cases b <;> simp [same, same_iff x]
  | conditional x y z, b => by
    cases b <;> simp [same, same_iff x, same_iff y, same_iff z, and_assoc]
  | binary x _ y, b => by
    cases b <;> simp [same, same_iff x, same_iff y, and_assoc, and_left_comm]
  | prefixed _ x, b => by cases b <;> simp [same, same_iff x]
  | postfixed x _, b => by cases b <;> simp [same, same_iff x, and_comm]
  | call x xs, b => by cases b <;> simp [same, same_iff x, sameEach_iff xs]

/-- `sameEach` decides equality. -/
theorem sameEach_iff : ∀ xs ys : List Expr, sameEach xs ys = true ↔ xs = ys
  | [], ys => by cases ys <;> simp [sameEach]
  | x :: xs, ys => by cases ys <;> simp [sameEach, same_iff x, sameEach_iff xs]

end

instance : DecidableEq Expr := fun a b => decidable_of_iff _ (same_iff a b)

mutual

/-- Writing after a text leaves that text in front. -/
theorem appendTo_append : ∀ (expr : Expr) (before out : String),
    expr.appendTo (before ++ out) = before ++ expr.appendTo out
  | name _, before, out => by simp [appendTo, String.append_assoc]
  | assign _ value, before, out => by
    simp [appendTo, String.append_assoc, appendTo_append value before]
  | conditional test yes no, before, out => by
    simp [appendTo, String.append_assoc, appendTo_append test before,
      appendTo_append yes before, appendTo_append no before]
  | binary left _ right, before, out => by
    simp [appendTo, String.append_assoc, appendTo_append left before,
      appendTo_append right before]
  | prefixed _ operand, before, out => by
    simp [appendTo, String.append_assoc, appendTo_append operand before]
  | postfixed operand _, before, out => by
    simp [appendTo, String.append_assoc, appendTo_append operand before]
  | call callee arguments, before, out => by
    simp [appendTo, String.append_assoc, appendTo_append callee before,
      appendEach_append arguments _ before]

/-- Writing expressions after a text leaves that text in front. -/
theorem appendEach_append : ∀ (exprs : List Expr) (separator before out : String),
    appendEach separator (before ++ out) exprs = before ++ appendEach separator out exprs
  | [], _, _, _ => by simp [appendEach]
  | expr :: rest, separator, before, out => by
    simp [appendEach, String.append_assoc, appendTo_append expr before,
      appendEach_append rest _ before]

end

/-- Writing after a text appends the text of the expression. -/
theorem appendTo_eq (expr : Expr) (out : String) : expr.appendTo out = out ++ expr.print := by
  have h := appendTo_append expr out ""
  rwa [String.append_empty] at h

/-- Writing expressions after a text appends what is written after the empty text. -/
theorem appendEach_eq (exprs : List Expr) (separator out : String) :
    appendEach separator out exprs = out ++ appendEach separator "" exprs := by
  have h := appendEach_append exprs separator out ""
  rwa [String.append_empty] at h

/-- A name is its own text. -/
@[simp] theorem print_name (text : String) : (name text).print = text := by
  simp [print, appendTo]

/-- An assignment stands in parentheses, with an equals sign between spaces. -/
@[simp] theorem print_assign (target : String) (value : Expr) :
    (assign target value).print = "(" ++ target ++ " = " ++ value.print ++ ")" := by
  rw [print, appendTo, value.appendTo_eq, String.empty_append]

/-- A choice stands in parentheses, with its signs between spaces. -/
@[simp] theorem print_conditional (test yes no : Expr) :
    (conditional test yes no).print =
      "(" ++ test.print ++ " ? " ++ yes.print ++ " : " ++ no.print ++ ")" := by
  rw [print, appendTo, no.appendTo_eq, yes.appendTo_eq, test.appendTo_eq, String.empty_append]

/-- An operator between operands stands between spaces, all in parentheses. -/
@[simp] theorem print_binary (left : Expr) (operator : Kind) (right : Expr) :
    (binary left operator right).print =
      "(" ++ left.print ++ " " ++ operator.display ++ " " ++ right.print ++ ")" := by
  rw [print, appendTo, right.appendTo_eq, left.appendTo_eq, String.empty_append]

/-- An operator before its operand touches it, both in parentheses. -/
@[simp] theorem print_prefixed (operator : Kind) (operand : Expr) :
    (prefixed operator operand).print = "(" ++ operator.display ++ operand.print ++ ")" := by
  rw [print, appendTo, operand.appendTo_eq, String.empty_append]

/-- An operator after its operand touches it, both in parentheses. -/
@[simp] theorem print_postfixed (operand : Expr) (operator : Kind) :
    (postfixed operand operator).print = "(" ++ operand.print ++ operator.display ++ ")" := by
  rw [print, appendTo, operand.appendTo_eq, String.empty_append]

/-- The arguments of a call stand in parentheses right after the callee. -/
@[simp] theorem print_call (callee : Expr) (arguments : List Expr) :
    (call callee arguments).print =
      callee.print ++ "(" ++ appendEach "" "" arguments ++ ")" := by
  rw [print, appendTo, appendEach_eq, callee.appendTo_eq, String.empty_append]

/-- The first expression follows its separator, and the others follow commas. -/
@[simp] theorem appendEach_cons (separator : String) (expr : Expr) (rest : List Expr) :
    appendEach separator "" (expr :: rest) =
      separator ++ expr.print ++ appendEach ", " "" rest := by
  rw [appendEach, appendEach_eq, expr.appendTo_eq, String.empty_append]

end Expr

end Precedence
