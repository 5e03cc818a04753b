import StyleDoc.Command.Run
import StyleDoc.Main
import StyleDoc.Proofs.Bodies
import StyleDoc.Proofs.Classification
import StyleDoc.Proofs.Concatenation
import StyleDoc.Proofs.EscapedClasses
import StyleDoc.Proofs.Finality
import StyleDoc.Proofs.FirstClass
import StyleDoc.Proofs.Indentation
import StyleDoc.Proofs.InnerComments
import StyleDoc.Proofs.JsonRecords
import StyleDoc.Proofs.LookBack
import StyleDoc.Proofs.Margins
import StyleDoc.Proofs.MergedParameters
import StyleDoc.Proofs.NestingLimit
import StyleDoc.Proofs.NodeTexts
import StyleDoc.Proofs.OptionalParameters
import StyleDoc.Proofs.Pairing
import StyleDoc.Proofs.Positions
import StyleDoc.Proofs.Printing
import StyleDoc.Proofs.Rendering
import StyleDoc.Proofs.Scanning
import StyleDoc.Proofs.Spacing
import StyleDoc.Proofs.Strictness
import StyleDoc.Proofs.TagLines
import StyleDoc.Proofs.Tiling
import StyleDoc.Proofs.UsualFiles
import StyleDoc.Proofs.WellFormed
