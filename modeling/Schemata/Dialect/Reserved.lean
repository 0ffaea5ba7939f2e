import Schemata.Dialect

/-!
Reserved words. Every word is in upper case; names are compared without regard to case.
-/

namespace Schemata

/-- Words that all dialects reserve. -/
def commonReservedWords : List String :=
  ["ADD", "ALL", "ALTER", "AND", "ANY", "AS", "ASC", "BETWEEN", "BY", "CASE", "CHECK", "COLUMN",
   "CONSTRAINT", "CREATE", "CROSS", "CURRENT", "CURRENT_DATE", "CURRENT_TIME",
   "CURRENT_TIMESTAMP", "CURRENT_USER", "DEFAULT", "DELETE", "DESC", "DISTINCT", "DROP", "ELSE",
   "END", "EXISTS", "FALSE", "FETCH", "FOR", "FOREIGN", "FROM", "FULL", "GRANT", "GROUP",
   "HAVING", "IN", "INDEX", "INNER", "INSERT", "INTERSECT", "INTO", "IS", "JOIN", "KEY", "LEFT",
   "LIKE", "NOT", "NULL", "OF", "ON", "OR", "ORDER", "OUTER", "PRIMARY", "REFERENCES", "RIGHT",
   "SELECT", "SET", "TABLE", "THEN", "TO", "TRIGGER", "TRUE", "UNION", "UNIQUE", "UPDATE",
   "USER", "USING", "VALUES", "VIEW", "WHEN", "WHERE", "WITH"]

namespace Dialect

/-- Words that the dialect reserves beyond the common ones. -/
def reservedWords : Dialect → List String
  | oracle =>
    ["ACCESS", "AUDIT", "CLUSTER", "COMMENT", "COMPRESS", "CONNECT", "DATE", "DECIMAL",
     "EXCLUSIVE", "FILE", "FLOAT", "IDENTIFIED", "IMMEDIATE", "INCREMENT", "INITIAL", "INTEGER",
     "LEVEL", "LOCK", "LONG", "MAXEXTENTS", "MINUS", "MODE", "MODIFY", "NOAUDIT", "NOCOMPRESS",
     "NOWAIT", "NUMBER", "OFFLINE", "ONLINE", "OPTION", "PCTFREE", "PRIOR", "PRIVILEGES",
     "PUBLIC", "RAW", "RENAME", "RESOURCE", "REVOKE", "ROW", "ROWID", "ROWNUM", "ROWS",
     "SESSION", "SHARE", "SIZE", "SMALLINT", "START", "SUCCESSFUL", "SYNONYM", "SYSDATE", "UID",
     "VALIDATE", "VARCHAR", "VARCHAR2"]
  | sqlServer =>
    ["BACKUP", "BEGIN", "BREAK", "BROWSE", "BULK", "CHECKPOINT", "CLUSTERED", "COMPUTE",
     "CONTAINS", "CONTINUE", "DATABASE", "DBCC", "DENY", "DISK", "DUMP", "ERRLVL", "EXEC",
     "EXECUTE", "EXIT", "FILE", "FILLFACTOR", "FUNCTION", "GOTO", "HOLDLOCK", "IDENTITY", "IF",
     "KILL", "LINENO", "LOAD", "NOCHECK", "NONCLUSTERED", "OFF", "OFFSETS", "OPEN", "OVER",
     "PERCENT", "PIVOT", "PLAN", "PRINT", "PROC", "PROCEDURE", "PUBLIC", "RAISERROR", "READ",
     "RECONFIGURE", "REPLICATION", "RESTORE", "RETURN", "REVOKE", "ROWCOUNT", "RULE", "SAVE",
     "SCHEMA", "SHUTDOWN", "STATISTICS", "TOP", "TRAN", "TRANSACTION", "TRUNCATE", "TSEQUAL",
     "UPDATETEXT", "USE", "WAITFOR", "WHILE", "WRITETEXT"]
  | sybase =>
    ["BEGIN", "BREAK", "BROWSE", "CHECKPOINT", "CLUSTERED", "COMPUTE", "CONTINUE", "DATABASE",
     "DUMP", "EXEC", "EXECUTE", "EXIT", "FILLFACTOR", "GOTO", "HOLDLOCK", "IDENTITY", "IF",
     "KILL", "LINENO", "LOAD", "MODIFY", "NOHOLDLOCK", "NONCLUSTERED", "OFF", "OFFSETS",
     "ONLINE", "OPEN", "PLAN", "PRINT", "PROC", "PROCEDURE", "PUBLIC", "RAISERROR", "READ",
     "REPLACE", "RETURN", "REVOKE", "ROWCOUNT", "RULE", "SAVE", "SCHEMA", "SHUTDOWN",
     "STATISTICS", "STRINGSIZE", "TEXTSIZE", "TRAN", "TRANSACTION", "TRUNCATE", "TSEQUAL", "USE",
     "WAITFOR", "WHILE", "WRITETEXT"]
  | postgreSql =>
    ["ANALYSE", "ANALYZE", "ARRAY", "ASYMMETRIC", "BOTH", "CAST", "COLLATE", "DEFERRABLE", "DO",
     "INITIALLY", "LATERAL", "LEADING", "LIMIT", "LOCALTIME", "LOCALTIMESTAMP", "OFFSET", "ONLY",
     "PLACING", "RETURNING", "SESSION_USER", "SOME", "SYMMETRIC", "TRAILING", "VARIADIC",
     "WINDOW"]
  | mySql =>
    ["ACCESSIBLE", "CHANGE", "DATABASE", "DATABASES", "DELAYED", "DIV", "DUAL", "ENCLOSED",
     "ESCAPED", "EXPLAIN", "HIGH_PRIORITY", "IGNORE", "INTERVAL", "KEYS", "KILL", "LIMIT",
     "LINES", "LOAD", "LOCK", "LONG", "LOW_PRIORITY", "MATCH", "MOD", "OPTIMIZE", "OPTION",
     "OUTFILE", "PURGE", "RANGE", "READ", "REGEXP", "RENAME", "REPEAT", "REPLACE", "REQUIRE",
     "RLIKE", "SCHEMA", "SCHEMAS", "SEPARATOR", "SHOW", "SPATIAL", "STARTING", "STRAIGHT_JOIN",
     "TERMINATED", "UNLOCK", "UNSIGNED", "USAGE", "USE", "WRITE", "XOR", "ZEROFILL"]
  | db2 =>
    ["AFTER", "ALIAS", "ALLOW", "AUDIT", "BEFORE", "BEGIN", "BUFFERPOOL", "CALL", "CAPTURE",
     "COLLECTION", "CONCAT", "CONDITION", "CONTAINS", "COUNT", "CYCLE", "DATA", "DATABASE",
     "DAYS", "DB2SQL", "DO", "EDITPROC", "ELSEIF", "ENCODING", "ERASE", "EXCLUSIVE", "EXIT",
     "FENCED", "FIELDPROC", "FILE", "FINAL", "GENERATED", "HOURS", "IF", "IMMEDIATE", "INHERIT",
     "ITERATE", "LEAVE", "LOCATOR", "LOCK", "LOOP", "MODE", "MODIFIES", "NODENAME", "NUMPARTS",
     "OBID", "OPTIMIZATION", "OPTIMIZE", "PACKAGE", "PART", "PARTITION", "PIECESIZE", "PLAN",
     "PRIQTY", "PROGRAM", "QUERYNO", "READS", "RECOVERY", "REPEAT", "RESET", "RESIGNAL",
     "RESTART", "RESULT", "RETURN", "ROW", "RRN", "SECQTY", "SIGNAL", "SIMPLE", "SOURCE",
     "STOGROUP", "SUBPAGES", "SYNONYM", "TABLESPACE", "UNDO", "UNTIL", "VALIDPROC", "VARIABLE",
     "VARIANT", "VCAT", "VOLUMES", "WHILE", "WLM", "YEARS"]
  | derby =>
    ["BOOLEAN", "CALL", "CONNECT", "CURSOR", "DATE", "DECIMAL", "DOUBLE", "EXPLAIN", "FLOAT",
     "INT", "INTEGER", "LOWER", "NATIONAL", "OFFSET", "ROWS", "SMALLINT", "SUBSTR", "TIME",
     "TIMESTAMP", "UPPER", "VARCHAR"]
  | hsqldb =>
    ["ARRAY", "BINARY", "BOOLEAN", "CALL", "CORRESPONDING", "CUBE", "CURSOR", "CYCLE", "DATE",
     "DAY", "DECIMAL", "DOUBLE", "ELEMENT", "FILTER", "FLOAT", "FUNCTION", "HOUR", "INTEGER",
     "INTERVAL", "LIMIT", "MINUTE", "MONTH", "MODULE", "NATURAL", "OFFSET", "OVER", "POSITION",
     "RANGE", "ROW", "ROWS", "SECOND", "SMALLINT", "TIME", "TIMESTAMP", "VARCHAR", "WINDOW",
     "YEAR"]
  | sqlite =>
    ["ABORT", "AUTOINCREMENT", "COLLATE", "CONFLICT", "DEFERRABLE", "EXCEPT", "GLOB",
     "IMMEDIATE", "ISNULL", "LIMIT", "NOTNULL", "OFFSET", "PRAGMA", "RAISE", "REGEXP", "REINDEX",
     "RENAME", "REPLACE", "TEMP", "TEMPORARY", "VACUUM"]

end Dialect

end Schemata
