/-!
# Cutting text

Texts are cut at a separator, trimmed by a predicate and searched for a part.
The list functions do the work; their `String` forms stand beside them.
-/

namespace ScriptBuild.Text

/-- The pieces between the occurrences of `sep`: one more than there are
occurrences, empty ones included. -/
def pieces (sep : Char) (cs : List Char) : List (List Char) :=
  cs.foldr (fun c ps =>
    if c = sep then [] :: ps
    else match ps with
      | [] => [[c]]
      | p :: ps => (c :: p) :: ps) [[]]

def split (sep : Char) (s : String) : List String :=
  (pieces sep s.toList).map String.ofList

def joinWith (sep : String) : List String → String
  | [] => ""
  | [s] => s
  | s :: rest => s ++ sep ++ joinWith sep rest

def dropEndWhile (p : α → Bool) (xs : List α) : List α :=
  (xs.reverse.dropWhile p).reverse

def stripBy (p : α → Bool) (xs : List α) : List α :=
  dropEndWhile p (xs.dropWhile p)

def after? (part cs : List Char) : Option (List Char) :=
  match part, cs with
  | [], cs => some cs
  | _ :: _, [] => none
  | p :: part, c :: cs => if p = c then after? part cs else none

def occursIn (part : List Char) : List Char → Bool
  | [] => part.isEmpty
  | c :: cs => (after? part (c :: cs)).isSome || occursIn part cs

theorem pieces_nil (sep : Char) : pieces sep [] = [[]] := rfl

theorem pieces_cons_sep (sep : Char) (cs : List Char) :
    pieces sep (sep :: cs) = [] :: pieces sep cs := by
  simp [pieces]

theorem pieces_ne_nil (sep : Char) (cs : List Char) : pieces sep cs ≠ [] := by
  cases cs with
  | nil => simp [pieces]
  | cons c cs =>
    simp only [pieces, List.foldr_cons]
    split
    · simp
    · split <;> simp

theorem after?_eq_some_iff {part cs rest : List Char} :
    after? part cs = some rest ↔ cs = part ++ rest := by
  induction part generalizing cs with
  | nil => simp [after?]
  | cons p part ih =>
    cases cs with
    | nil => simp [after?]
    | cons c cs =>
      by_cases h : p = c
      · simp [after?, h, ih]
      · simp [after?, h, Ne.symm h]

end ScriptBuild.Text
