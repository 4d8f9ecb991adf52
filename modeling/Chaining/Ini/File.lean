import Chaining.Map.Put
import Chaining.Ini.Line
import Chaining.Ini.Error

/-!
# INI files: sections of keys and values

A file is a map from section names to sections, and a section a map from keys
to values, all of them texts. `File.parse` reads a text line by line. A header
opens its section, or opens it again with all it has; an assignment belongs to
the section opened last, and the last assignment to a key counts. The first
line that breaks a rule ends the reading with its error.

What the maps report of their work, and the error or the success at the end, is
kept in order as `Report`s.
-/

namespace Chaining.Ini

/-- Keys and values of one section. -/
abbrev Section := Map Keying.text String

/-- Sections by name. -/
structure File where
  sections : Map Keying.text Section

/-- What is reported while a file is read. -/
inductive Report where
  /-- A map reports an event. -/
  | storage (event : Event)
  /-- A line is at fault. -/
  | rejected (error : Error)
  /-- The file of that name has been read. -/
  | parsed (name : String) (sections : Nat)
  deriving DecidableEq, Repr

/-- The line that makes the report. -/
def Report.line : Report → String
  | storage event => event.line
  | rejected error => Level.warning.word ++ " [inifile] " ++ error.message
  | parsed name sections => Level.detail.word ++ s!" parsed {name} ({sections} sections)"

/-- How far a text has been read. -/
structure Progress where
  sections : Map Keying.text Section := Map.empty Keying.text
  /-- The name of the section opened last. -/
  current : Option String := none
  reports : Array Report := #[]

namespace Progress

/-- What one step of reading comes to: the text read further, or an error, with
all reports. -/
abbrev Step := Except (Error × Array Report) Progress

/-- An error of a line ends the reading; it is reported. -/
def fail (p : Progress) (e : Error) : Step :=
  .error (e, p.reports.push (.rejected e))

/-- The reports of one more put. -/
def withEvents (p : Progress) (events : Array Event) : Progress :=
  { p with reports := p.reports ++ events.map Report.storage }

/-- The section of that name is open from here on. -/
def openSection (p : Progress) (name : String) : Step :=
  let p := { p with current := some name }
  if p.sections.contains name then .ok p
  else
    let o := p.sections.put {} name (Map.empty Keying.text)
    let p := { p with sections := o.map }.withEvents o.transcript.events
    match o.answer with
    | .rejected r => .error (.storage r.error, p.reports)
    | _ => .ok p

/-- A value for a key of a section that is there. -/
def assign (p : Progress) (name key value : String) : Step :=
  match (p.sections.search name).found with
  | none => .ok p
  | some e =>
    let o := e.value.put {} key value
    let p := { p with sections := p.sections.mapValueAt e.pos fun _ => o.map }.withEvents
      o.transcript.events
    match o.answer with
    | .rejected r => .error (.storage r.error, p.reports)
    | _ => .ok p

/-- One more line, which has that number. -/
def read (p : Progress) (number : Nat) : Line → Step
  | .ignored => .ok p
  | .openHeader => p.fail (.missingSectionEnd number)
  | .header name => p.openSection (String.ofList name)
  | .noAssignment => p.fail (.expectedKeyValue number)
  | .assignment key value =>
    match p.current with
    | none => p.fail (.keyOutsideSection number)
    | some name =>
      if key.isEmpty then p.fail (.emptyKey number)
      else p.assign name (String.ofList key) (String.ofList value)

/-- Some more lines, the first of which has that number. -/
def readAll (p : Progress) (number : Nat) : List (List Char) → Step
  | [] => .ok p
  | line :: rest =>
    match p.read number (Line.ofChars line) with
    | .error e => .error e
    | .ok p => p.readAll (number + 1) rest

end Progress

/-- A result with the reports made on the way. -/
structure Reading where
  result : Except Error File
  reports : Array Report

namespace File

/-- Reads a text. -/
def parse (text : String) : Reading :=
  match Progress.readAll {} 1 (lines text.toList) with
  | .error (e, reports) => ⟨.error e, reports⟩
  | .ok p => ⟨.ok ⟨p.sections⟩, p.reports⟩

/-- The number of sections. -/
def len (f : File) : Nat :=
  f.sections.len

/-- Reads a file of that name from its bytes, which are absent if there is no
such file. -/
def load (name : String) (bytes : Option ByteArray) : Reading :=
  match bytes with
  | none => ⟨.error (.source .notFound), #[]⟩
  | some bytes =>
    match String.fromUTF8? bytes with
    | none => ⟨.error (.source .notText), #[]⟩
    | some text =>
      let r := parse text
      match r.result with
      | .error _ => r
      | .ok f => { r with reports := r.reports.push (.parsed name f.len) }

/-- Whether there is no section. -/
def isEmpty (f : File) : Bool :=
  f.sections.isEmpty

/-- The section of a name. -/
def section? (f : File) (name : String) : Option Section :=
  f.sections.get? name

/-- Whether there is a section of that name. -/
def containsSection (f : File) (name : String) : Bool :=
  f.sections.contains name

/-- The value of a key in a section. -/
def get? (f : File) (name key : String) : Option String :=
  (f.section? name).bind fun s => s.get? key

end File

end Chaining.Ini
