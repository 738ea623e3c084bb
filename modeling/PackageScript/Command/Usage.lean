import PackageScript.Command.Arguments
/-! The words on how to use the program. -/
namespace PackageScript.Command

def versionLine : String := "hscript 0.1.0"

def usage : String :=
  Text.joinWith "\n"
    ["Compile hscript package descriptions into build-engine scripts",
      "",
      "Usage: hscript [OPTIONS] <COMMAND>",
      "",
      "Commands:",
      "  compile [PATH]...  Generate scripts from documents",
      "      --format <wscript|hscript>  Output format",
      "      -o, --output <FILE>         Write the result here (single document only)",
      "      -r, --recursive             Search directories recursively for documents",
      "      --no-backup                 Overwrite hand-written scripts",
      "      --stdout                    Print the result instead of writing files",
      "  check [PATH]...    Validate documents without writing anything",
      "      -r, --recursive             Search directories recursively for documents",
      "      --json                      Print a JSON report instead of text",
      "  clean [PATH]...    Remove generated scripts and restore backups",
      "      -r, --recursive             Search directories recursively for documents",
      "      --drop-backup               Delete backups instead of restoring them",
      "",
      "Options:",
      "  -v, --verbose        Enable debug logging",
      "  -q, --quiet          Only log errors",
      "  -c, --config <PATH>  Path to the configuration file",
      "  -h, --help           Print help",
      "  -V, --version        Print version"]

def Notice.text : Notice → String
  | .help | .nothingGiven => usage
  | .version => versionLine
  | .unknownArgument => "error: unexpected argument\n\n" ++ usage
  | .argumentConflict => "error: arguments that cannot be used together or twice\n\n" ++ usage
  | .invalidValue => "error: a value that is missing or invalid\n\n" ++ usage
  | .invalidCommand => "error: unrecognized subcommand\n\n" ++ usage
  | .missingCommand => "error: a subcommand is required\n\n" ++ usage
  | .tooManyValues => "error: a value for an option that takes none\n\n" ++ usage

end PackageScript.Command
