import Marginalia.Proofs.CommandLine.Reading
import Marginalia.Proofs.Extract.StandardInput

/-! Which options a command line asks for. Of two opposite flags the last one counts, a double hyphen ends the
flags, and the configuration is asked only where the command line says nothing. -/

namespace Marginalia

namespace CommandLine

section Words

variable {on off word : Text} {words : List Text}

end Words

def Flag.name : Flag → Text
  | help => Text.lit "help"
  | version => Text.lit "version"
  | verbose => Text.lit "verbose"
  | pretty => Text.lit "pretty"
  | includeNode => Text.lit "include-node"
  | noIncludeNode => Text.lit "no-include-node"
  | tags => Text.lit "tags"
  | noTags => Text.lit "no-tags"
  | removeTagLines => Text.lit "remove-tag-lines"
  | keepTagLines => Text.lit "keep-tag-lines"

def Flag.word (f : Flag) : Text := Text.lit "--" ++ f.name

namespace Reading

variable {r r' : Reading} {g : Given} {words : List Text}

end Reading

section Neutral

variable {ahead words : List Text} {on off : Flag}

end Neutral

namespace Invocation

variable {r r' : Reading} {word : Text} {words : List Text} {invocation : Invocation} {g : Given}

end Invocation

end CommandLine

namespace Extract

open CommandLine

section Congruence

variable {options options' : Options} (h : options.resolve = options'.resolve)

include h

end Congruence

end Extract

end Marginalia
