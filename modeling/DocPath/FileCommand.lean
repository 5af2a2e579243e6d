import DocPath.Delimiters.Toml
import DocPath.FileTree

/-!
# DocPath.FileCommand

Work with files, and delimiters kept in them. Saving makes the directories that are missing on the
way to the file; writing does not.
-/

namespace DocPath

/-- What can be done with files. -/
inductive FileCommand where
  | makeDirectory (name : String)
  | write (name : String) (content : ByteArray)
  | read (name : String)
  /-- Saves delimiters, checked or not. -/
  | save (name : String) (d : Delimiters)
  /-- Loads and checks delimiters. -/
  | load (name : String)

/-- What comes of it. -/
inductive FileReply where
  | done
  | text (s : String)
  | loaded (d : Delimiters)
  /-- The files stand against it. -/
  | impossible
  /-- Delimiters cannot be written under a name. -/
  | unwritable (name : String)
  /-- There is no text to load under a name. -/
  | unreadable (name : String)
  /-- The text gives no delimiters. -/
  | refused (e : Delimiters.LoadError)

/-- The message for a file that cannot be written. -/
def unwritableMessage (name : String) : String := "Failed to write syntax file " ++ name

/-- The message for a file that cannot be read. -/
def unreadableMessage (name : String) : String := "Failed to read syntax file " ++ name

namespace FileTree

/-- The text of the file with a name. -/
def text? (t : FileTree) (name : String) : Option String :=
  (t.content? (.ofString name)).bind String.fromUTF8?

/-- Carries out a command. -/
def run (t : FileTree) : FileCommand → FileReply × FileTree
  | .makeDirectory name =>
    let (isMade, t) := t.makeDirectory (.ofString name)
    (if isMade then .done else .impossible, t)
  | .write name content =>
    match t.write? (.ofString name) content with
    | some t => (.done, t)
    | none => (.impossible, t)
  | .read name =>
    match t.text? name with
    | some s => (.text s, t)
    | none => (.impossible, t)
  | .save name d =>
    let name' := FileName.ofString name
    let (isMade, t) := t.makeDirectory name'.parent
    if !isMade then (.impossible, t)
    else
      -- The directories stay, whether the file can be written or not.
      match t.write? name' d.toToml.toUTF8 with
      | some t => (.done, t)
      | none => (.unwritable name, t)
  | .load name =>
    match t.text? name with
    | none => (.unreadable name, t)
    | some s =>
      match Delimiters.ofToml? s with
      | .error e => (.refused e, t)
      | .ok d => (.loaded d, t)

/-- Carries out commands in order. -/
def runAll (t : FileTree) : List FileCommand → List FileReply
  | [] => []
  | c :: rest =>
    let (reply, t) := t.run c
    reply :: t.runAll rest

end FileTree

end DocPath
