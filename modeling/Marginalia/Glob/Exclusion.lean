import Marginalia.Glob.Parser
import Marginalia.Log

/-!
Exclusion by patterns. Texts that are no patterns exclude nothing and are reported.
-/

namespace Marginalia.Glob

def patterns (texts : List Text) : List Pattern :=
  texts.filterMap fun t => (parse t).toOption

def warnings (texts : List Text) : List LogEntry :=
  texts.filterMap fun t =>
    match parse t with
    | .ok _ => none
    | .error problem =>
      some (.warning
        (Text.lit "invalid exclude pattern '" ++ t ++ Text.lit "': " ++ problem.message t))

def excludes (patterns : List Pattern) (path : Text) : Bool :=
  patterns.any fun p => isMatch p path

end Marginalia.Glob
