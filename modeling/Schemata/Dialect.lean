import Schemata.Text.Blank

/-!
The SQL dialects that scripts are written for.
-/

namespace Schemata

inductive Dialect where
  | oracle
  | sqlServer
  | sybase
  | postgreSql
  | mySql
  | db2
  | derby
  | hsqldb
  | sqlite
  deriving DecidableEq, Repr

namespace Dialect

/-- Every dialect, in the order in which they are listed to a reader. -/
def all : List Dialect :=
  [oracle, sqlServer, sybase, postgreSql, mySql, db2, derby, hsqldb, sqlite]

theorem mem_all (d : Dialect) : d ∈ all := by
  cases d <;> decide

/-- The name on the command line and in file names. -/
def id : Dialect → String
  | oracle => "oracle"
  | sqlServer => "sqlserver"
  | sybase => "sybase"
  | postgreSql => "postgresql"
  | mySql => "mysql"
  | db2 => "db2"
  | derby => "derby"
  | hsqldb => "hsqldb"
  | sqlite => "sqlite"

/-- The name inside a hint block. -/
def keyword : Dialect → String
  | oracle => "ORACLE"
  | sqlServer => "SQLSERVER"
  | sybase => "SYBASE"
  | postgreSql => "POSTGRESQL"
  | mySql => "MYSQL"
  | db2 => "DB2"
  | derby => "DERBY"
  | hsqldb => "HSQLDB"
  | sqlite => "SQLITE"

/-- The name of the product. -/
def productName : Dialect → String
  | oracle => "Oracle"
  | sqlServer => "Microsoft SQL Server"
  | sybase => "Sybase ASE"
  | postgreSql => "PostgreSQL"
  | mySql => "MySQL"
  | db2 => "IBM Db2"
  | derby => "Apache Derby"
  | hsqldb => "HyperSQL"
  | sqlite => "SQLite"

def ofKeyword? (keyword : String) : Option Dialect :=
  all.find? fun d => d.keyword == keyword

/-- Other names under which a dialect is known. -/
def aliases : List (String × Dialect) :=
  [("mssql", sqlServer), ("postgres", postgreSql), ("pg", postgreSql)]

/-- The dialect of a name or alias; case and surrounding blanks do not matter. -/
def ofName? (name : String) : Option Dialect :=
  let wanted := lowerAscii (trimBlank name)
  match all.find? fun d => d.id == wanted with
  | some d => some d
  | none => aliases.lookup wanted

end Dialect

end Schemata
