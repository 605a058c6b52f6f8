import TypeSketch.Main
import TypeSketch.Proofs.Recursion
import TypeSketch.Proofs.Growth
import TypeSketch.Proofs.Naming
import TypeSketch.Proofs.Routes
import TypeSketch.Proofs.TypeText
import TypeSketch.Proofs.NameForm
import TypeSketch.Proofs.Conformance
import TypeSketch.Proofs.Records
import TypeSketch.Proofs.Closure
import TypeSketch.Proofs.Order
import TypeSketch.Proofs.NameOrigin
import TypeSketch.Proofs.Quoting
import TypeSketch.Proofs.Blocks
import TypeSketch.Proofs.BlankLines
import TypeSketch.Proofs.Outline
import TypeSketch.Proofs.RootPrefix
import TypeSketch.Proofs.Replay
import TypeSketch.Proofs.Locality
import TypeSketch.Proofs.TypeGrammar
import TypeSketch.Proofs.BuiltinNames
import TypeSketch.Proofs.Alike
import TypeSketch.Proofs.Renaming
import TypeSketch.Proofs.LooseNulls
import TypeSketch.Proofs.Contents
import TypeSketch.Proofs.PlainNames
import TypeSketch.Proofs.ValuesAt
import TypeSketch.Proofs.MemberOrder
import TypeSketch.Proofs.LongNumbers
import TypeSketch.Proofs.Boundary
import TypeSketch.Proofs.StringArrays
import TypeSketch.Proofs.Failure
import TypeSketch.Proofs.ControlCharacters
import TypeSketch.Proofs.Emission
import TypeSketch.Proofs.TidyPaths
import TypeSketch.Proofs.RecalledCommand
import TypeSketch.Proofs.EnumValues
import TypeSketch.Proofs.FreshNames
import TypeSketch.Proofs.PropertyKeys
import TypeSketch.Proofs.WrittenKeys
import TypeSketch.Proofs.MemberKeys
import TypeSketch.Proofs.OptionMembers
import TypeSketch.Proofs.DeepNesting
import TypeSketch.Proofs.OptionsFile
import TypeSketch.Proofs.CommentFlag
import TypeSketch.Proofs.GenerationComment
import TypeSketch.Proofs.PascalCase
import TypeSketch.Proofs.StringLiterals
import TypeSketch.Proofs.PlaceNumbers
import TypeSketch.Proofs.Frames
import TypeSketch.Proofs.CamelCase
import TypeSketch.Proofs.NameSearch
