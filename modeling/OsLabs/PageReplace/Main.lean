import OsLabs.Lib.Strings
import OsLabs.PageReplace.Scheduler

/-!
# The reference sequence (`010PageReplace/source/main.c`)

`parse_query_str` and `read_file` are loops that read page numbers, `long` values, and store them
as bytes.  `queryNumbers` and `fileNumbers` are the values of `v` in these loops, and
`parseQueryStr` and `readFile` what is stored in `buf`.
-/

namespace OsLabs.PageReplace

/-- `MAX_QUERY` -/
def MAX_QUERY : ℕ := 1024

/-- What keeps `parse_query_str` and `read_file` from returning. -/
inductive QueryError where
  /-- `Cannot open file: %s` -/
  | cannotOpen
  /-- `Invalid page number: %s` -/
  | invalid (s : List Char)
  /-- The end of the string is not in `tmp`. -/
  | outside
  deriving DecidableEq, Repr

/-- `(uint8_t)v` -/
def narrow (v : ℤ) : UInt8 := .ofInt v

/-- `strtok(.., " ")`, within `tmp`. -/
def nextToken (mem : List Char) : Except QueryError (Option (List Char × List Char)) :=
  match strtok ' ' mem with
  | none => .error .outside
  | some next => .ok next

/-- The loop of `parse_query_str`, with room for `k` more numbers. -/
def queryLoop : ℕ → Option (List Char × List Char) → Except QueryError (List ℤ)
  | 0, _ => .ok []
  | _ + 1, none => .ok []
  | k + 1, some (tok, mem) =>
    let v := strtol tok
    if v < 0 then .error (.invalid tok)
    else do
      let next ← nextToken mem
      let vs ← queryLoop k next
      return v :: vs

/-- The page numbers of `s`; `tmp` is what the buffer holds before. -/
def queryNumbers (tmp s : List Char) : Except QueryError (List ℤ) := do
  let tok ← nextToken (strncpy tmp s (MAX_QUERY * 4 - 1))
  queryLoop MAX_QUERY tok

/-- `parse_query_str` -/
def parseQueryStr (tmp s : List Char) : Except QueryError (List UInt8) := do
  let vs ← queryNumbers tmp s
  return vs.map narrow

/-- The size of `line`. -/
def LINE_SIZE : ℕ := 20

/-- The loop of `read_file`, with room for `k` more numbers. -/
def fileLoop (k : ℕ) (file : List Char) : Except QueryError (List ℤ) :=
  match _hread : fgets LINE_SIZE file with
  | none => .ok []
  | some (line, file') =>
    match k with
    | 0 => .ok []
    | k + 1 =>
      let line := (cString line).takeWhile (· ≠ '\n')
      if line = [] then fileLoop (k + 1) file'
      else
        let v := strtol line
        if v < 0 then .error (.invalid line)
        else do
          let vs ← fileLoop k file'
          return v :: vs
termination_by file.length
decreasing_by
  · exact length_lt_of_fgets (show 2 ≤ LINE_SIZE by decide) ‹_›
  · exact length_lt_of_fgets (show 2 ≤ LINE_SIZE by decide) ‹_›

/-- The page numbers of a file, unless it cannot be opened. -/
def fileNumbers (file : Option (List Char)) : Except QueryError (List ℤ) :=
  match file with
  | none => .error .cannotOpen
  | some file => fileLoop MAX_QUERY file

/-- `read_file` -/
def readFile (file : Option (List Char)) : Except QueryError (List UInt8) := do
  let vs ← fileNumbers file
  return vs.map narrow

/-- Where `parseArgs` takes the reference sequence from. -/
inductive Source where
  /-- `-query s` -/
  | query (tmp s : List Char)
  /-- `-f file` -/
  | file (f : Option (List Char))

/-- The page numbers given. -/
def Source.numbers : Source → Except QueryError (List ℤ)
  | .query tmp s => queryNumbers tmp s
  | .file f => fileNumbers f

/-- `ret.query` -/
def Source.pages : Source → Except QueryError (List UInt8)
  | .query tmp s => parseQueryStr tmp s
  | .file f => readFile f

end OsLabs.PageReplace
