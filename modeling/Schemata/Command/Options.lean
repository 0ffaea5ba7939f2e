/-!
The options of the command line: which there are, where they may stand and what values they take.
-/

namespace Schemata.Command

inductive OptionId where
  | config
  | format
  | verbose
  | quiet
  | noColor
  | help
  | version
  | print
  | sources
  | generator
  | outputFile
  | outputDir
  | fromSources
  | toSources
  | oldVersion
  | additional
  | versionTable
  | versionColumn
  deriving DecidableEq, Repr

/-- What stands after an option. A `list` takes all values up to the next option. -/
inductive Takes where
  | nothing
  | one
  | list
  deriving DecidableEq, Repr

/-- What a value has to be. -/
inductive ValueKind where
  | text
  | path
  | oneOf (choices : List String)
  | word32
  deriving DecidableEq, Repr

structure OptionSpec where
  id : OptionId
  letter : Option Char := none
  names : List String
  takes : Takes := .nothing
  kind : ValueKind := .text
  repeats : Bool := false
  deriving DecidableEq, Repr

namespace OptionSpec

/-- Options that may stand before and after the name of a command. -/
def everywhere : List OptionSpec :=
  [{ id := .config, letter := 'c', names := ["config"], takes := .one, kind := .path },
   { id := .format, names := ["format"], takes := .one,
     kind := .oneOf ["human", "json", "plain"] },
   { id := .verbose, letter := 'v', names := ["verbose"], repeats := true },
   { id := .quiet, letter := 'q', names := ["quiet"] },
   { id := .noColor, names := ["no-color"] },
   { id := .help, letter := 'h', names := ["help"] },
   { id := .version, letter := 'V', names := ["version"] }]

def outputFile : OptionSpec :=
  { id := .outputFile, letter := 'o', names := ["output-file", "outputFile"], takes := .one,
    kind := .path }

def ofParse : List OptionSpec :=
  [{ id := .print, names := ["print"] }]

def ofGenerate : List OptionSpec :=
  [{ id := .sources, names := ["sql"], takes := .list, kind := .path, repeats := true },
   { id := .generator, letter := 'g', names := ["generator"], takes := .one, repeats := true },
   outputFile,
   { id := .outputDir, letter := 'd', names := ["output-dir", "outputDir"], takes := .one,
     kind := .path }]

def ofDiff : List OptionSpec :=
  [{ id := .fromSources, names := ["from"], takes := .list, kind := .path, repeats := true },
   { id := .toSources, names := ["to"], takes := .list, kind := .path, repeats := true },
   { id := .oldVersion, names := ["old-version", "oldVersion"], takes := .one, kind := .word32 },
   { id := .generator, letter := 'g', names := ["generator"], takes := .one },
   outputFile,
   { id := .additional, names := ["additional"], takes := .list, kind := .path, repeats := true },
   { id := .versionTable, names := ["version-table", "versionTable"], takes := .one },
   { id := .versionColumn, names := ["version-column", "versionColumn"], takes := .one }]

end OptionSpec

/-- Long options that may be written with a single dash. -/
def singleDash : List (String × String) :=
  [("-sql", "--sql"), ("-generator", "--generator"), ("-outputFile", "--output-file"),
   ("-outputDir", "--output-dir"), ("-from", "--from"), ("-to", "--to"),
   ("-oldVersion", "--old-version"), ("-additional", "--additional")]

/-- Gives long options their two dashes, up to an argument that ends the options. -/
def expandSingleDash : List String → List String
  | [] => []
  | arg :: args =>
    if arg = "--" then arg :: args
    else (singleDash.lookup arg).getD arg :: expandSingleDash args

inductive Shell where
  | bash
  | elvish
  | fish
  | powershell
  | zsh
  deriving DecidableEq, Repr

namespace Shell

def all : List Shell :=
  [bash, elvish, fish, powershell, zsh]

def name : Shell → String
  | bash => "bash"
  | elvish => "elvish"
  | fish => "fish"
  | powershell => "powershell"
  | zsh => "zsh"

def ofName? (name : String) : Option Shell :=
  all.find? fun s => s.name == name

end Shell

end Schemata.Command
