/-
Templates from their sources.

A source is a text, or bytes that are decoded in the encoding they are found to have,
whichever encodings there are.  Blanks before the content of a decoded text and a
declaration of the XML version after them are skipped, since the content of a template is
a fragment, which must not have one.
-/
import TagGrammar.Markup.Encoding
import TagGrammar.Markup.Lexer
import TagGrammar.Template.Builder

namespace TagGrammar
namespace Template

/-- Read a template from its source. -/
def parse (keepBlanks : Bool) (source : String) : Except ParseError Node :=
  parseWith Markup.tokenize keepBlanks source

/-- What follows the first end of a processing instruction. -/
def afterDeclaration? : List Char → Option (List Char)
  | '?' :: '>' :: rest => some rest
  | _ :: rest => afterDeclaration? rest
  | [] => none

/-- A text without the blanks at its start and without a declaration after them. -/
def withoutDeclaration (cs : List Char) : List Char :=
  match Text.skipBlanks cs with
  | '<' :: '?' :: 'x' :: 'm' :: 'l' :: ' ' :: rest =>
    (afterDeclaration? rest).getD ('<' :: '?' :: 'x' :: 'm' :: 'l' :: ' ' :: rest)
  | cs => cs

/-- Read a template from the bytes of its source, with a way to decode them and one to cut
the text into tokens. -/
def parseBytesWith {ε : Type} (decoder : Markup.Decoder ε) (tokenizer : Markup.Tokenizer)
    (keepBlanks : Bool) (bytes : List UInt8) : Except ParseError Node :=
  let encoding := decoder.detect bytes
  match decoder.decode encoding bytes with
  | none => .error (.undecodable (decoder.name encoding))
  | some cs => parseWith tokenizer keepBlanks (String.ofList (withoutDeclaration cs))

/-- Read a template from the bytes of its source. -/
def parseBytes (keepBlanks : Bool) (bytes : List UInt8) : Except ParseError Node :=
  parseBytesWith Markup.Encoding.decoder Markup.tokenize keepBlanks bytes

end Template
end TagGrammar
