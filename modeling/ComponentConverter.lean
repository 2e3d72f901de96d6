import ComponentConverter.Main
import ComponentConverter.Proofs.AttributeNames
import ComponentConverter.Proofs.Chaining
import ComponentConverter.Proofs.CreationCode
import ComponentConverter.Proofs.DedentedLines
import ComponentConverter.Proofs.DelimiterCount
import ComponentConverter.Proofs.DetachedTokens
import ComponentConverter.Proofs.InterpolationParts
import ComponentConverter.Proofs.LayoutChoices
import ComponentConverter.Proofs.LinePositions
import ComponentConverter.Proofs.LoopHeads
import ComponentConverter.Proofs.MemberOrder
import ComponentConverter.Proofs.PropNotes
import ComponentConverter.Proofs.Rendering
import ComponentConverter.Proofs.ReportLines
import ComponentConverter.Proofs.RewrittenSelectors
import ComponentConverter.Proofs.RunEffects
import ComponentConverter.Proofs.SourceSpacing
import ComponentConverter.Proofs.TagSpelling
import ComponentConverter.Proofs.TemplateRoundTrip
import ComponentConverter.Proofs.TokenTiling
