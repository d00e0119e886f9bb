import ScriptBuild.Toml.Text

/-!
# TOML: values, tables and documents

Strings, booleans, arrays and tables. A document with a number or a date in it
is refused: no option holds one.
-/

namespace ScriptBuild.Toml

/-- How a table came about, which decides what may be added to it. -/
inductive TableForm
  /-- Written in braces; nothing is added to it. -/
  | inline
  /-- Opened by a header of its own. -/
  | header
  /-- Opened by a longer header only. -/
  | implied
  /-- Opened by a dotted key. -/
  | dotted
  deriving DecidableEq, Repr

inductive Value
  | string (s : String)
  | boolean (b : Bool)
  | array (items : List Value)
  | table (form : TableForm) (entries : List (String × Value))
  /-- Tables that were opened by headers in double brackets. -/
  | tables (elements : List (List (String × Value)))
  deriving Repr

abbrev Entries := List (String × Value)

namespace Entries

def find? (es : Entries) (key : String) : Option Value := (List.find? (·.1 = key) es).map (·.2)

def set (es : Entries) (key : String) (v : Value) : Entries :=
  if (find? es key).isSome then es.map fun e => if e.1 = key then (key, v) else e
  else es ++ [(key, v)]

/-- Changes the table that `path` leads to, opening the tables that are missing on
the way. A dotted key does not reach into a table that has a header of its own,
and nothing reaches into a table in braces. -/
def change (opened : TableForm) (f : TableForm → Entries → Option (TableForm × Entries)) :
    List String → TableForm → Entries → Option (TableForm × Entries)
  | [], form, es => f form es
  | key :: path, form, es =>
    match find? es key with
    | none => do
      let (form', inner) ← change opened f path opened []
      return (form, set es key (.table form' inner))
    | some (.table form' inner) =>
      if form' = .inline ∨ (opened = .dotted ∧ form' = .header) then none
      else do
        let (form', inner) ← change opened f path form' inner
        return (form, set es key (.table form' inner))
    | some (.tables elements) => do
      let (_, inner) ← change opened f path .header (elements.getLast?.getD [])
      return (form, set es key (.tables (elements.dropLast ++ [inner])))
    | some _ => none

/-- Adds a value under a key that is new in its table. Tables of a dotted key take
values of dotted keys only. -/
def addKey (key : List String) (v : Value) (form : TableForm) (es : Entries) :
    Option (TableForm × Entries) :=
  change .dotted (fun form es =>
    if (form == .dotted) == key.dropLast.isEmpty then none
    else do
      let last ← key.getLast?
      if (find? es last).isSome then none else some (form, set es last v)) key.dropLast form es

end Entries

-- ---------------------------------------------------------------------------
-- Values
-- ---------------------------------------------------------------------------

mutual

def value? : Nat → Reader Value
  | 0, _ => none
  | fuel + 1, cs =>
    match cs with
    | '[' :: rest => (items? fuel rest).map fun (items, cs) => (.array items, cs)
    | '\x7b' :: rest =>
      match skipSpaces rest with
      | '\x7d' :: rest => some (.table .inline [], rest)
      | rest => (pairs? fuel [] rest).map fun (es, cs) => (.table .inline es, cs)
    | _ =>
      match Text.after? "true".toList cs, Text.after? "false".toList cs with
      | some rest, _ => some (.boolean true, rest)
      | none, some rest => some (.boolean false, rest)
      | none, none => (string? cs).map fun (s, cs) => (.string s, cs)

def items? : Nat → Reader (List Value)
  | 0, _ => none
  | fuel + 1, cs =>
    match skipLines cs.length cs with
    | ']' :: rest => some ([], rest)
    | cs => do
      let (v, cs) ← value? fuel cs
      match skipLines cs.length cs with
      | ']' :: rest => return ([v], rest)
      | ',' :: rest =>
        let (vs, rest) ← items? fuel rest
        return (v :: vs, rest)
      | _ => none

def pairs? : Nat → Entries → Reader Entries
  | 0, _, _ => none
  | fuel + 1, es, cs => do
    let (key, cs) ← key? cs.length cs
    match cs with
    | '=' :: cs =>
      let (v, cs) ← value? fuel (skipSpaces cs)
      let (_, es) ← Entries.addKey key v .header es
      match skipSpaces cs with
      | '\x7d' :: rest => return (es, rest)
      | ',' :: rest => pairs? fuel es rest
      | _ => none
    | _ => none

end

-- ---------------------------------------------------------------------------
-- Documents
-- ---------------------------------------------------------------------------

inductive Line
  | pair (key : List String) (v : Value)
  | header (key : List String)
  | arrayHeader (key : List String)

def line? (cs : List Char) : Option (Line × List Char) := do
  let (line, cs) ←
    match cs with
    | '[' :: '[' :: rest => do
      let (key, cs) ← key? rest.length rest
      let cs ← Text.after? [']', ']'] cs
      pure (Line.arrayHeader key, cs)
    | '[' :: rest => do
      let (key, cs) ← key? rest.length rest
      let cs ← Text.after? [']'] cs
      pure (Line.header key, cs)
    | _ => do
      let (key, cs) ← key? cs.length cs
      let cs ← Text.after? ['='] cs
      let (v, cs) ← value? cs.length (skipSpaces cs)
      pure (Line.pair key v, cs)
  let cs ← endLine? cs
  return (line, cs)

structure Document where
  entries : Entries := []
  openTable : List String := []

namespace Document

def add (d : Document) : Line → Option Document
  | .pair key v => do
    let (_, es) ← Entries.change .implied (Entries.addKey key v) d.openTable .header d.entries
    return { d with entries := es }
  | .header key => do
    let last ← key.getLast?
    let (_, es) ← Entries.change .implied (fun form es =>
      match Entries.find? es last with
      | none => some (form, Entries.set es last (.table .header []))
      | some (.table .implied inner) => some (form, Entries.set es last (.table .header inner))
      | some _ => none) key.dropLast .header d.entries
    return ⟨es, key⟩
  | .arrayHeader key => do
    let last ← key.getLast?
    let (_, es) ← Entries.change .implied (fun form es =>
      match Entries.find? es last with
      | none => some (form, Entries.set es last (.tables [[]]))
      | some (.tables elements) => some (form, Entries.set es last (.tables (elements ++ [[]])))
      | some _ => none) key.dropLast .header d.entries
    return ⟨es, key⟩

def readLines : Nat → Document → List Char → Option Document
  | 0, _, _ => none
  | fuel + 1, d, cs =>
    match skipComment (skipLines cs.length cs) with
    | [] => some d
    | _ => do
      let (line, cs) ← line? (skipLines cs.length cs)
      let d ← d.add line
      if cs.isEmpty then return d else readLines fuel d cs

def read? (s : String) : Option Entries :=
  let cs := s.toList
  let cs := (Text.after? [Char.ofNat 0xfeff] cs).getD cs
  (readLines (cs.length + 1) {} cs).map (·.entries)

end Document

end ScriptBuild.Toml
