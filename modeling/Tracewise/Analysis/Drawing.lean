import Tracewise.Analysis.Finding

namespace Tracewise

namespace Text.Quoted

def escapeChar (c : Char) : List Char := if c = '"' then ['\\', '"'] else [c]

def escape (s : String) : String := String.ofList (s.toList.flatMap escapeChar)

def quote (s : String) : String := "\"" ++ s ++ "\""

end Text.Quoted

namespace Text.Markup

def entity : Char → List Char
  | '&' => ['&', 'a', 'm', 'p', ';']
  | '<' => ['&', 'l', 't', ';']
  | '>' => ['&', 'g', 't', ';']
  | '"' => ['&', 'q', 'u', 'o', 't', ';']
  | c => [c]

def escape (s : String) : String := String.ofList (s.toList.flatMap entity)

end Text.Markup

structure DrawingStyle where
  nodeShape : String
  entryShape : String
  wideningShape : String
  findingColor : String
  markup : Bool

def DrawingStyle.default : DrawingStyle := ⟨"box", "house", "doubleoctagon", "red", true⟩

namespace DrawingStyle

def shape (style : DrawingStyle) (n : Node) : String :=
  if n.id = Graph.entry then style.entryShape
  else if n.widening then style.wideningShape
  else style.nodeShape

def markupLabel (style : DrawingStyle) (n : Node) (notes : List String) : String :=
  let statement := match n.atom with
    | some a => "<BR/>" ++ Text.Markup.escape a.text
    | none => ""
  let note (s : String) := "<BR/><FONT COLOR=\"" ++ style.findingColor ++ "\">" ++
    Text.Markup.escape s ++ "</FONT>"
  "<<B>" ++ Text.Markup.escape n.name ++ "</B>" ++ statement ++ String.join (notes.map note) ++ ">"

def plainLabel (n : Node) (notes : List String) : String :=
  let lines := n.name :: ((n.atom.map Atom.text).toList ++ notes)
  Text.Quoted.quote (String.intercalate "\\n" (lines.map Text.Quoted.escape))

def label (style : DrawingStyle) (n : Node) (notes : List String) : String :=
  if style.markup then style.markupLabel n notes else plainLabel n notes

def nodeLine (style : DrawingStyle) (findings : List Finding) (n : Node) : String :=
  let notes := (findings.filter (·.trace.contains n.id)).map Finding.message
  let shape := style.shape n
  NodeId.text n.id ++ " [label=" ++ style.label n notes ++
    (if shape = style.nodeShape then "" else ", shape=" ++ shape) ++
    (if notes.isEmpty then "" else ", color=" ++ style.findingColor) ++ "];\n"

end DrawingStyle

namespace Graph

def edgeLine (e : Edge) : String := NodeId.text e.1 ++ " -> " ++ NodeId.text e.2 ++ ";\n"

def draw (g : Graph) (style : DrawingStyle) (findings : List Finding) : String :=
  "digraph " ++ Text.Quoted.quote (Text.Quoted.escape g.program.name) ++ " \x7b\n" ++
    "node [shape=" ++ style.nodeShape ++ "];\n" ++
    String.join (g.nodes.toList.map (style.nodeLine findings)) ++
    String.join (g.edges.toList.map edgeLine) ++ "\x7d\n"

end Graph

end Tracewise
