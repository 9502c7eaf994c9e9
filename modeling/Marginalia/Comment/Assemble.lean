import Marginalia.Comment.Body
import Marginalia.Comment.Tags

/-!
From raw comments to normalized ones, under settings.
-/

namespace Marginalia.RawComment

def assemble (raw : RawComment) (settings : Settings) : Comment :=
  let lines := Body.normalize raw.value (Body.stripsMarkers raw.value) settings.trim
  let extracted : Tag.Extracted :=
    if settings.parseTags then Tag.extract lines settings.removeTagLines else ⟨[], lines⟩
  { startLine := raw.startLine
    endLine := raw.endLine
    lines := extracted.lines
    isDoc := Body.isDocBlock raw.value
    tags := extracted.tags
    node := if settings.includeNode then raw.node else none }

def assembleAll (raws : List RawComment) (settings : Settings) : List Comment :=
  raws.map fun raw => raw.assemble settings

end Marginalia.RawComment
