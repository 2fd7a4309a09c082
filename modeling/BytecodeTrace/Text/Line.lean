/-
# Lines of a text

A line ends at a line feed or at the end of the text.  A carriage return right before a line
feed belongs to the line end.  A text that ends with a line feed has no empty line after it.
-/
import BytecodeTrace.Text.Span

namespace BytecodeTrace
namespace Text

/-- A line that was ended by a line feed, without the carriage return before it. -/
def dropReturn (line : List Char) : List Char :=
  match line.getLast? with
  | some '\r' => line.dropLast
  | _ => line

/-- The lines of a text, without their ends. -/
def lines (s : List Char) : List (List Char) :=
  match s with
  | [] => []
  | c :: s =>
    match _h : (c :: s).dropWhile (· != '\n') with
    | [] => [c :: s]
    | _ :: rest => dropReturn ((c :: s).takeWhile (· != '\n')) :: lines rest
termination_by s.length
decreasing_by
  have := (List.dropWhile_suffix (l := c :: s) (· != '\n')).length_le
  rw [_h] at this
  simp at this ⊢
  omega

end Text
end BytecodeTrace
