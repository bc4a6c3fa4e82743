/-
# `Choices.Command.Word` — the words of a command line

A word that starts with a minus and goes on names flags: two minus signs
and a name, or one and a cluster of letters, each letter a flag.  Names are
whole and take no value.  Two minus signs alone are the separator, behind
which every word is a value.  All other words are plain, the empty word and
a single minus among them.

A cluster is kept as a list of marks, one for each letter, and a letter that
is no flag is a mark too: a line is read from left to right, and what comes
first decides.
-/

namespace Choices.Command

/-- What a flag asks for: the size alone, the work in branches, more or
fewer messages, a description of the command, its version. -/
inductive Flag where
  | count
  | parallel
  | verbose
  | quiet
  | help
  | version
deriving DecidableEq

def Flag.ofLetter? : Char → Option Flag
  | 'c' => some .count
  | 'p' => some .parallel
  | 'v' => some .verbose
  | 'q' => some .quiet
  | 'h' => some .help
  | 'V' => some .version
  | _ => none

def Flag.ofName? : String → Option Flag
  | "count" => some .count
  | "parallel" => some .parallel
  | "verbose" => some .verbose
  | "quiet" => some .quiet
  | "help" => some .help
  | "version" => some .version
  | _ => none

/-- A word by its shape. -/
inductive Word where
  | separator
  /-- The flags that a word names, in order, with `none` for what is no flag. -/
  | flags (marks : List (Option Flag))
  | plain (text : String)
deriving DecidableEq

def Word.ofString (text : String) : Word :=
  match text.toList with
  | ['-', '-'] => .separator
  | '-' :: '-' :: name => .flags [Flag.ofName? (String.ofList name)]
  | '-' :: letter :: letters => .flags ((letter :: letters).map Flag.ofLetter?)
  | _ => .plain text

end Choices.Command
