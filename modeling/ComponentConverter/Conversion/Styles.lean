import ComponentConverter.Component
import ComponentConverter.Diagnostic
import ComponentConverter.Style.Selector
import ComponentConverter.Stylesheet.Format

namespace ComponentConverter.Conversion

def styleElement (attributes css : Text) : Text := "<style" ++ attributes ++ ">\n" ++ css ++ "</style>\n\n"

def endLine (t : Text) : Text := if t.isEmpty || t.getLast? = some '\n' then t else t ++ ['\n']

def style (block : Block) : Noted Text :=
  match block.lang.filter (· != "css".toList) with
  | some lang => do
    .note (.warning .unsupportedStyleLang ("<style lang=\"" ++ lang ++
      "\"> is copied as is, selectors are not made global") (some block.span))
    return styleElement (" lang=\"" ++ lang ++ "\"") (trim block.content ++ ['\n'])
  | none => do
    let source := if block.isScoped then Style.deepen block.content else block.content
    let css ← match Stylesheet.format source with
      | .ok css => pure css
      | .error fault => do
        .note (.warning .unparsedStyle
          ("unable to parse <style> block, copied as is: " ++ fault.message.toList)
          (some block.contentSpan))
        pure (trim source)
    return styleElement [] (endLine (if block.isScoped then css else Style.globalize css))

end ComponentConverter.Conversion
