import GroupedOptions.Template
import GroupedOptions.Group
import GroupedOptions.ArgVec
import GroupedOptions.ConvError
import GroupedOptions.Numeral
import GroupedOptions.Binary
import GroupedOptions.Decimal
import GroupedOptions.FromValue
import GroupedOptions.Conversion
import GroupedOptions.ParseError
import GroupedOptions.Parse
import GroupedOptions.Matches
import GroupedOptions.Shell
import GroupedOptions.Json
import GroupedOptions.Config.OfJson
import GroupedOptions.OptionSet
import GroupedOptions.CommandLine
import GroupedOptions.Main
import GroupedOptions.Proofs.Emission
import GroupedOptions.Proofs.NormalForm
import GroupedOptions.Proofs.PassThrough
import GroupedOptions.Proofs.Writes
import GroupedOptions.Proofs.OptionSet.Recording
import GroupedOptions.Proofs.Config.Compiled
import GroupedOptions.Proofs.Template.Value
import GroupedOptions.Proofs.OptionSet.Failures
import GroupedOptions.Proofs.OptionSet.Policies
import GroupedOptions.Proofs.OptionSet.Results
import GroupedOptions.Proofs.Continuation
import GroupedOptions.Proofs.Operands
import GroupedOptions.Proofs.Group.Concat
import GroupedOptions.Proofs.Spelling
import GroupedOptions.Proofs.Shell.Quoting
import GroupedOptions.Proofs.Shell.Commands
import GroupedOptions.Proofs.Config.Reachability
import GroupedOptions.Proofs.Config.GroupRows
import GroupedOptions.Proofs.OptionSet.Counting
import GroupedOptions.Proofs.Shell.Exports
import GroupedOptions.Proofs.Table.Keys
import GroupedOptions.Proofs.Flushing
import GroupedOptions.Proofs.Shell.Identifiers
import GroupedOptions.Proofs.Json.Grammar
import GroupedOptions.Proofs.Json.Fields
import GroupedOptions.Proofs.Json.Range
import GroupedOptions.Proofs.Config.Text
import GroupedOptions.Proofs.CommandLine
import GroupedOptions.Proofs.Group.Decoding
import GroupedOptions.Proofs.Group.Addition
import GroupedOptions.Proofs.Template.Separator
import GroupedOptions.Proofs.Consumption
import GroupedOptions.Proofs.Numeral.Detected
import GroupedOptions.Proofs.Numeral.Agreement
import GroupedOptions.Proofs.Stopping
import GroupedOptions.Proofs.Directives
import GroupedOptions.Proofs.Numeral.OutOfRange
import GroupedOptions.Proofs.IntegerFields
import GroupedOptions.Proofs.Numeral.Display
import GroupedOptions.Proofs.Config.Dispatch
import GroupedOptions.Proofs.OptionSet.Unknown
import GroupedOptions.Proofs.Assembly
import GroupedOptions.Proofs.Insertion
import GroupedOptions.Proofs.Shell.Positionals
import GroupedOptions.Proofs.ArgVec.Edits
