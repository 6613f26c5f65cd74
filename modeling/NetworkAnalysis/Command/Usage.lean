import NetworkAnalysis.Command.Arguments

/-!
# Usage

What is shown when a command line is not run.
-/

namespace NetworkAnalysis.Command

/-- What is shown when help is asked for. -/
def helpText : String :=
  "galgo: in-memory graph analytics over edge-list files\n\n" ++
  "Usage: galgo [OPTIONS] <COMMAND>\n\n" ++
  "Commands:\n" ++
  "  stats EDGES                       Describe a graph\n" ++
  "  shortest-path EDGES --source ID   Dijkstra shortest path\n" ++
  "  betweenness EDGES                 Betweenness centrality\n" ++
  "  scc EDGES                         Strongly connected components\n" ++
  "  louvain EDGES                     Louvain community detection\n\n" ++
  "Options:\n" ++
  "  -v, --verbose          Enable verbose logging\n" ++
  "      --timing           Emit stage timing report to stderr\n" ++
  "      --format MODE      Output format: pretty, text, or json\n" ++
  "      --config FILE      TOML file with settings\n" ++
  "      --timeout-ms MS    Stop after this many milliseconds\n" ++
  "      --backend NAME     Storage backend: dense, huge, or auto\n" ++
  "      --weighted         Load weights from the third column\n" ++
  "      --default-weight W Weight for relationships without one\n" ++
  "      --write FILE       Write per-node results as JSON lines\n" ++
  "  -h, --help             Print help\n" ++
  "  -V, --version          Print version\n"

/-- What is shown when the version is asked for. -/
def versionText : String := "graphalgo-cli 0.4.0\n"

/-- What is shown when the arguments make no invocation. -/
def misuseText : String := "error: the arguments make no command; see --help\n"

/-- What is shown when a command line is not run. -/
def Stop.text : Stop → String
  | help => helpText
  | version => versionText
  | misuse => misuseText

end NetworkAnalysis.Command
