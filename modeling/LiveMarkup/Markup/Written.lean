import LiveMarkup.Markup.Tree

/-!
# The written form of markup

`Snapshot.outer` writes a node with everything below it and `Snapshot.inner` only what is below it.
Text is escaped with three references and attribute values with four; the text directly below a raw
element is written as it is, and a void element is written without an end tag.
-/

namespace LiveMarkup

/-- The written form of a character of text. -/
def escapeTextChar : Char → String
  | '&' => "&amp;"
  | '<' => "&lt;"
  | '>' => "&gt;"
  | c => c.toString

/-- The written form of a character of a double-quoted attribute value. -/
def escapeValueChar : Char → String
  | '"' => "&quot;"
  | c => escapeTextChar c

/-- The written form of text. -/
def escapeText (s : String) : String := String.join (s.toList.map escapeTextChar)

/-- The written form of an attribute value between double quotes. -/
def escapeValue (s : String) : String := String.join (s.toList.map escapeValueChar)

/-- The written form of an attribute: its name and its quoted value. -/
def Attribute.written (a : Attribute) : String := a.name ++ "=\"" ++ escapeValue a.value ++ "\""

/-- The written form of the attributes of a start tag, each after a space. -/
def writtenAttributes : List Attribute → String
  | [] => ""
  | a :: as => " " ++ a.written ++ writtenAttributes as

namespace Tree

mutual

/-- The written form of a tree; `raw` says that its parent is a raw element. -/
def written (raw : Bool) : Tree → String
  | element tag attributes children =>
    let start := "<" ++ tag ++ writtenAttributes attributes ++ ">"
    if isVoidTag tag then start
    else start ++ writtenAll (isRawTag tag) children ++ "</" ++ tag ++ ">"
  | text data => if raw then data else escapeText data
  | comment data => "<!--" ++ data ++ "-->"

/-- The written form of a list of siblings. -/
def writtenAll (raw : Bool) : List Tree → String
  | [] => ""
  | t :: ts => t.written raw ++ writtenAll raw ts

end

end Tree

/-- The written form of a node and everything below it. -/
def Snapshot.outer : Snapshot → String
  | tree t => t.written false
  | attr a => a.written
  | fragment children => Tree.writtenAll false children

/-- The written form of everything below a node. -/
def Snapshot.inner : Snapshot → String
  | tree (.element tag _ children) => Tree.writtenAll (isRawTag tag) children
  | tree _ => ""
  | attr _ => ""
  | fragment children => Tree.writtenAll false children

end LiveMarkup
