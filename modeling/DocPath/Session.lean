import DocPath.Path.Compile
import DocPath.Path.Walk

/-!
# DocPath.Session

A session with named paths and named walks over a list of documents. Walks advance only when they
are asked to, each on its own; replacing a path leaves the walks along it as they are.
-/

namespace DocPath

/-- The state of a session. -/
structure Session where
  compiler : Compiler
  docs : List Value
  paths : Entries Path := []
  walks : Entries Walk := []

/-- What a session can be asked to do. -/
inductive Command where
  /-- Compiles a text and keeps the path under a name. -/
  | compile (path text : String)
  /-- Shows the path of a name. -/
  | describe (path : String)
  /-- Starts a walk of a document along the path of a name. -/
  | openPath (walk path : String) (doc : Nat)
  /-- Starts a walk of a document along the path of a text in the default delimiters. -/
  | openText (walk text : String) (doc : Nat)
  /-- Takes the next result of a walk. -/
  | next (walk : String)
  /-- Takes all the remaining results of a walk. -/
  | rest (walk : String)

/-- What a session answers. -/
inductive Reply where
  /-- A path is compiled; given is the number of its operations. -/
  | compiled (count : Nat)
  | described (path : Path)
  | opened
  | result (r : Except WalkError Value)
  | finished
  | results (rs : List (Except WalkError Value))
  /-- A text is no path. -/
  | failed (e : CompileError)
  | noSuchPath
  | noSuchWalk

namespace Session

/-- The document at a position; null beyond the last one. -/
def doc (s : Session) (n : Nat) : Value := s.docs[n]?.getD .null

/-- The session with a walk started under a name. -/
def start (s : Session) (walk : String) (p : Path) (doc : Nat) : Session :=
  { s with walks := s.walks.put walk (Walk.start p (s.doc doc)) }

/-- Carries out a command. -/
def run (s : Session) : Command → Reply × Session
  | .compile path text =>
    match s.compiler.compile text with
    | .error e => (.failed e, s)
    | .ok p => (.compiled p.ops.length, { s with paths := s.paths.put path p })
  | .describe path =>
    match s.paths.lookup path with
    | none => (.noSuchPath, s)
    | some p => (.described p, s)
  | .openPath walk path doc =>
    match s.paths.lookup path with
    | none => (.noSuchPath, s)
    | some p => (.opened, s.start walk p doc)
  | .openText walk text doc =>
    match Path.ofText? text with
    | .error e => (.failed e, s)
    | .ok p => (.opened, s.start walk p doc)
  | .next walk =>
    match s.walks.lookup walk with
    | none => (.noSuchWalk, s)
    | some w =>
      let (r, w) := w.next
      ((r.map .result).getD .finished, { s with walks := s.walks.put walk w })
  | .rest walk =>
    match s.walks.lookup walk with
    | none => (.noSuchWalk, s)
    | some w => (.results w.results, { s with walks := s.walks.put walk ⟨[]⟩ })

/-- Carries out commands in order. -/
def runAll (s : Session) : List Command → List Reply
  | [] => []
  | c :: rest =>
    let (reply, s) := s.run c
    reply :: s.runAll rest

end Session

end DocPath
