import Marginalia.Comment.Assemble
import Marginalia.Source.Comments

/-!
Languages: each has a name, the file extensions it declares and a way to list the comments of a
source, which may fail.
-/

namespace Marginalia

inductive LanguageError where
  | grammar (detail : Text)
  | source (detail : Text)
  | unsupported (extension : Text)
  deriving DecidableEq, Repr

def LanguageError.message : LanguageError → Text
  | grammar detail => Text.lit "Failed to load grammar: " ++ detail
  | source detail => Text.lit "Failed to parse source: " ++ detail
  | unsupported extension => Text.lit "Unsupported language for extension: " ++ extension

structure Language where
  name : Text
  extensions : List Text
  comments : Text → Except LanguageError (List RawComment)

namespace Language

def ofDialect (d : Source.Dialect) : Language where
  name := d.name
  extensions := d.extensions
  comments source := .ok (Source.comments d source)

def extract (language : Language) (source : Text) (options : Options) :
    Except LanguageError (List Comment) :=
  (language.comments source).map fun raws => RawComment.assembleAll raws options.resolve

def default : Language := ofDialect .javascript

end Language

end Marginalia
