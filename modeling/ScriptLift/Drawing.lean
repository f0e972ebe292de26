import ScriptLift.Dot
import ScriptLift.FileTree

/-!
# Files of drawings

The drawing of a routine goes into a directory as a file named after the routine.  A renderer may
turn it into a picture beside it; without a usable renderer there is only the drawing.
-/

namespace ScriptLift

/-- What a renderer makes of a drawing. -/
inductive Rendering where
  | picture (bytes : List UInt8)
  | missing (reason : String)
  | failed (reason : String)

/-- Every rendering where no renderer is installed. -/
def Rendering.notInstalled : Rendering :=
  .missing ("failed to execute PosixPath('dot'), "
    ++ "make sure the Graphviz executables are on your systems' PATH")

/-- A tree of files with the outcome of the work on it and the events reported. -/
structure Filing (Value : Type) where
  value : Except FileError Value
  tree : FileTree
  events : List Event

namespace Routine

/-- Turn the drawing in `text` into a picture at `path`.  The value tells whether there is one. -/
def writePicture (render : String → Rendering) (text : String) (path : Path) (t : FileTree) :
    Filing Bool :=
  match render text with
  | .missing reason => ⟨.ok false, t, [.rendererMissing reason]⟩
  | .failed reason => ⟨.ok false, t, [.renderingFailed reason]⟩
  | .picture bytes =>
    match t.write path bytes with
    | .ok t => ⟨.ok true, t, []⟩
    | .error e => ⟨.error e, t, []⟩

/-- Write the drawing of a routine into a directory, and its picture if a renderer is given.  The
value is the paths of the two.  A drawing that cannot be encoded leaves an empty file. -/
def writeDrawing (r : Routine) (directory : Path) (render : Option (String → Rendering))
    (t : FileTree) : Filing (Path × Option Path) :=
  match FileTree.makeDirectories directory directory.parts.length t with
  | .error e => ⟨.error e, t, []⟩
  | .ok t =>
    let path := directory.join (r.name ++ ".dot")
    let picturePath := directory.join (r.name ++ ".svg")
    let text := r.dot none
    match t.write path (if r.isDrawingEncodable then text.toUTF8.toList else []) with
    | .error e => ⟨.error e, t, []⟩
    | .ok t =>
      if r.isDrawingEncodable then
        let written := Event.drawingWritten path.text
        match render with
        | none => ⟨.ok (path, none), t, [written]⟩
        | some render =>
          let picture := writePicture render text picturePath t
          ⟨picture.value.map fun drawn => (path, if drawn then some picturePath else none),
            picture.tree, written :: picture.events⟩
      else ⟨.error .notEncodable, t, []⟩

/-- Write the drawings of several routines, up to the first that fails. -/
def writeDrawings (directory : Path) (render : Option (String → Rendering)) :
    List Routine → FileTree → Filing Unit
  | [], t => ⟨.ok (), t, []⟩
  | r :: rs, t =>
    match r.writeDrawing directory render t with
    | ⟨.error e, t, events⟩ => ⟨.error e, t, events⟩
    | ⟨.ok _, t, events⟩ =>
      let more := writeDrawings directory render rs t
      { more with events := events ++ more.events }

end Routine

end ScriptLift
