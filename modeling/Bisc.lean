import Bisc.Main
import Bisc.Proofs.AllOrNothing
import Bisc.Proofs.Cuts
import Bisc.Proofs.FixedPoint
import Bisc.Proofs.HeaderFields
import Bisc.Proofs.Images
import Bisc.Proofs.InertComments
import Bisc.Proofs.JoinedLines
import Bisc.Proofs.Listing
import Bisc.Proofs.LoadConstant
import Bisc.Proofs.MovedDefinition
import Bisc.Proofs.Positions
import Bisc.Proofs.PrintedText
import Bisc.Proofs.Renaming
import Bisc.Proofs.Sections
import Bisc.Proofs.ExpansionLoop
import Bisc.Proofs.InvocationLoop
import Bisc.Proofs.MacroInvocation
import Bisc.Proofs.ConstantSubstitution
import Bisc.Proofs.ParserLoop
import Bisc.Proofs.Reports
import Bisc.Proofs.NestingDepth
import Bisc.Proofs.OperandGrammar
import Bisc.Proofs.FormMatching
import Bisc.Proofs.OneReading
import Bisc.Proofs.ConstantShapes
import Bisc.Proofs.Decoding
import Bisc.Proofs.NumberLiterals
import Bisc.Proofs.StringLiterals
import Bisc.Proofs.Coverage
import Bisc.Proofs.InvalidTokens
import Bisc.Proofs.MacroHeaders
import Bisc.Proofs.LetterCase
import Bisc.Proofs.CaseInsensitivity
import Bisc.Proofs.FirstDefinitions
import Bisc.Proofs.Reanalysis
import Bisc.Proofs.Instantiation
import Bisc.Proofs.CollectionLoop
