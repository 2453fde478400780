import LineMigration.Text.Basic

/-!
# Help

The texts that explain the command line, and the version.
-/

namespace LineMigration.Command

/-- Lines, each with its line feed. -/
def lines (all : List String) : Text := all.flatMap fun line ↦ line.toList ++ ['\n']

/-- The help that `-h` prints. -/
def shortHelp : Text := lines [
  "Migrate a Jenkinsfile from insights-pipeline-lib v2 to v3, in place",
  "",
  "Usage: pipeline-migrate [OPTIONS] [FILE]",
  "",
  "Arguments:",
  "  [FILE]  Jenkinsfile to migrate in place",
  "",
  "Options:",
  "      --dry-run  Report changes without writing the file",
  "      --list     Print the replacement table and exit (takes no FILE)",
  "      --json     Print a JSON envelope instead of the text log",
  "  -h, --help     Print help (see more with '--help')",
  "  -V, --version  Print version"
]

/-- The help that `--help` prints. -/
def longHelp : Text := lines [
  "Migrate a Jenkinsfile from insights-pipeline-lib v2 to v3, in place.",
  "",
  "The file is overwritten. Take a backup or make sure it is under version control first.",
  "",
  "Usage: pipeline-migrate [OPTIONS] [FILE]",
  "",
  "Arguments:",
  "  [FILE]",
  "          Jenkinsfile to migrate in place",
  "",
  "Options:",
  "      --dry-run",
  "          Report changes without writing the file",
  "",
  "      --list",
  "          Print the replacement table and exit (takes no FILE)",
  "",
  "      --json",
  "          Print a JSON envelope instead of the text log",
  "",
  "  -h, --help",
  "          Print help (see a summary with '-h')",
  "",
  "  -V, --version",
  "          Print version"
]

/-- The line that `--version` prints. -/
def versionLine : Text := lines ["pipeline-migrate 3.0.0"]

/-- What follows a complaint about the command line. -/
def usageReminder : Text := lines [
  "",
  "Usage: pipeline-migrate [OPTIONS] [FILE]",
  "",
  "For more information, try '--help'."
]

end LineMigration.Command
