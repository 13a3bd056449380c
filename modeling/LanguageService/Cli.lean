import LanguageService.Server

namespace LanguageService.Cli

inductive Command where
  | version
  | help
  | serve
  deriving DecidableEq, Repr

def command (args : List String) : Command :=
  if args.any fun a => a = "--version" || a = "-V" then .version
  else if args.any fun a => a = "--help" || a = "-h" then .help
  else .serve

def versionLines : List String := [Server.programName ++ " " ++ Server.version]

def helpLines : List String := [
  "Orca Language Server",
  "",
  "Usage: orca-lsp [OPTIONS]",
  "",
  "Options:",
  "  -h, --help     Print help",
  "  -V, --version  Print version",
  "",
  "The server communicates via stdio using the Language Server Protocol.",
  "",
  "Environment variables:",
  "  RUST_LOG            Set log level (e.g., RUST_LOG=orca_lsp=debug)",
  "  ORCA_LIBRARY_PATH   Default library root"]

def output? : Command → Option (List String)
  | .version => some versionLines
  | .help => some helpLines
  | .serve => none

end LanguageService.Cli
