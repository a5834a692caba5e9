import Cyclomatic.Command.Arguments

/-! # Help

The texts that explain the program and each of its commands.
-/

namespace Cyclomatic.Command

def topHelp : String :=
  "\n".intercalate
    ["usage: complexityscanner [-h] [--version] \x7banalyze,graph,export,init\x7d ...",
     "",
     "Cyclomatic complexity and control-flow graphs for JavaScript/TypeScript.",
     "",
     "positional arguments:",
     "  \x7banalyze,graph,export,init\x7d",
     "                        Available commands",
     "    analyze             Analyze a file or directory",
     "    graph               Build the control-flow graph of a function",
     "    export              Export metrics for high-complexity functions",
     "    init                Create a configuration file",
     "",
     "options:",
     "  -h, --help            show this help message and exit",
     "  --version             show program's version number and exit",
     "",
     "Examples:",
     "  complexityscanner analyze ./src                          # Analyze a project",
     "  complexityscanner analyze app.ts                         # Report for one file",
     "  complexityscanner analyze . --format json -o out.json    # JSON output to file",
     "  complexityscanner graph app.ts --function main --line 12 # Text CFG",
     "  complexityscanner graph app.ts --function main --line 12 -f dot",
     "  complexityscanner export ./src                           # Export outliers",
     "  complexityscanner init                                   # Create config file",
     "        ",
     ""]

def analyzeHelp : String :=
  "\n".intercalate
    ["usage: complexityscanner analyze [-h] [-c CONFIG] [-f \x7btext,json\x7d] [-o OUTPUT]",
     "                                 [-j JOBS] [--no-color] [-v]",
     "                                 [target]",
     "",
     "positional arguments:",
     "  target                Target file or directory (default: configured target",
     "                        or current directory)",
     "",
     "options:",
     "  -h, --help            show this help message and exit",
     "  -c CONFIG, --config CONFIG",
     "                        Path to configuration file",
     "  -f \x7btext,json\x7d, --format \x7btext,json\x7d",
     "                        Output format (default: text)",
     "  -o OUTPUT, --output OUTPUT",
     "                        Output file (default: stdout)",
     "  -j JOBS, --jobs JOBS  Number of parallel workers (default: 4)",
     "  --no-color            Disable colored output",
     "  -v, --verbose         Verbose output",
     ""]

def graphHelp : String :=
  "\n".intercalate
    ["usage: complexityscanner graph [-h] --function FUNCTION_NAME --line LINE",
     "                               [-f \x7btext,json,dot,mermaid\x7d] [-o OUTPUT]",
     "                               [--no-color] [-v]",
     "                               file",
     "",
     "positional arguments:",
     "  file                  Source file containing the function",
     "",
     "options:",
     "  -h, --help            show this help message and exit",
     "  --function FUNCTION_NAME",
     "                        Function name as reported by 'analyze'",
     "  --line LINE           Line the function is declared on",
     "  -f \x7btext,json,dot,mermaid\x7d, --format \x7btext,json,dot,mermaid\x7d",
     "                        Output format (default: text)",
     "  -o OUTPUT, --output OUTPUT",
     "                        Output file (default: stdout)",
     "  --no-color            Disable colored output",
     "  -v, --verbose         Verbose output (includes block source in text format)",
     ""]

def exportHelp : String :=
  "\n".intercalate
    ["usage: complexityscanner export [-h] [-c CONFIG] [--threshold THRESHOLD]",
     "                                [--directory DIRECTORY] [-v]",
     "                                [target]",
     "",
     "positional arguments:",
     "  target                Target file or directory",
     "",
     "options:",
     "  -h, --help            show this help message and exit",
     "  -c CONFIG, --config CONFIG",
     "                        Path to configuration file",
     "  --threshold THRESHOLD",
     "                        Reference complexity (default: project average);",
     "                        functions at twice this are exported",
     "  --directory DIRECTORY",
     "                        Export directory (default: complexity-metrics)",
     "  -v, --verbose         Verbose output",
     ""]

def initHelp : String :=
  "\n".intercalate
    ["usage: complexityscanner init [-h] [-f]",
     "",
     "options:",
     "  -h, --help   show this help message and exit",
     "  -f, --force  Overwrite existing config file",
     ""]

def versionText : String :=
  "\n".intercalate
    ["complexityscanner 1.0.0",
     ""]

end Cyclomatic.Command
