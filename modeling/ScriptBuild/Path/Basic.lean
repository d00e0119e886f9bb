import ScriptBuild.Text.Cut

/-!
# Paths

A path is kept as the text it was built with. Two paths are the `same` when
their components are: repeated slashes, slashes at the end and inner `.` do
not count, while `..` is a component like any other.
-/

namespace ScriptBuild

structure Path where
  text : String
  deriving DecidableEq, Repr, Inhabited

inductive Component
  | root
  | current
  | parent
  | name (text : String)
  deriving DecidableEq, Repr

namespace Path

def isEmpty (p : Path) : Bool := p.text.isEmpty

def isAbsolute (p : Path) : Bool := p.text.toList.head? == some '/'

def endsWithSlash (p : Path) : Bool := p.text.toList.getLast? == some '/'

/-- `q` seen from the directory `p`; an absolute `q` stands for itself. -/
def join (p q : Path) : Path :=
  if q.isAbsolute then q
  else if p.isEmpty || p.endsWithSlash then ⟨p.text ++ q.text⟩
  else ⟨p.text ++ "/" ++ q.text⟩

def ofSegments (segments : List String) : Path :=
  segments.foldl (fun p s => p.join ⟨s⟩) ⟨""⟩

def Component.ofFirst (piece : String) : Component :=
  if piece = "" then .root
  else if piece = "." then .current
  else if piece = ".." then .parent
  else .name piece

def Component.ofLater? (piece : String) : Option Component :=
  if piece = "" ∨ piece = "." then none
  else if piece = ".." then some .parent
  else some (.name piece)

def components (p : Path) : List Component :=
  if p.isEmpty then []
  else match Text.split '/' p.text with
    | [] => []
    | first :: later => Component.ofFirst first :: later.filterMap Component.ofLater?

def same (p q : Path) : Bool := p.components == q.components

theorem same_refl (p : Path) : p.same p = true := by simp [same]

theorem same_iff {p q : Path} : p.same q = true ↔ p.components = q.components := by simp [same]

theorem same_symm {p q : Path} (h : p.same q = true) : q.same p = true :=
  same_iff.mpr (same_iff.mp h).symm

theorem same_trans {p q r : Path} (hq : p.same q = true) (hr : q.same r = true) :
    p.same r = true :=
  same_iff.mpr ((same_iff.mp hq).trans (same_iff.mp hr))

end Path

end ScriptBuild
