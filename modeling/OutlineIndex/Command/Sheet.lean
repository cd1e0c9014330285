import OutlineIndex.Text.Lines

namespace OutlineIndex

structure Sheet where
  title : String
  rows : List (String × String)

namespace Sheet

def pad (width : Nat) (s : List Char) : List Char := s ++ List.replicate (width - s.length) ' '

def widest (cells : List (List Char)) : Nat := (cells.map List.length).foldl max 0

/-- The lines of a row; the lines of a value stand below each other. -/
def rowLines (row : String × String) : List (List Char × List Char) :=
  match Text.split '\n' row.2.toList with
  | [] => [(row.1.toList, [])]
  | v :: more => (row.1.toList, v) :: more.map ([], ·)

/-- A horizontal line with its ends and its joint. -/
def rule (left joint right : Char) (a b : Nat) : List Char :=
  left :: List.replicate (a + 2) '─' ++ joint :: List.replicate (b + 2) '─' ++ [right]

def render (s : Sheet) : String :=
  let lines := s.rows.flatMap rowLines
  let a := widest (lines.map (·.1))
  let b := widest (lines.map (·.2))
  let margin := (a + b + 7 - s.title.length) / 2
  let body := lines.map fun l => '│' :: ' ' :: pad a l.1 ++ ' ' :: '│' :: ' ' :: pad b l.2 ++ [' ', '│']
  let all := [List.replicate margin ' ' ++ s.title.toList, rule '┌' '┬' '┐' a b] ++ body ++
    [rule '└' '┴' '┘' a b]
  String.ofList (all.flatMap (· ++ ['\n']))

end Sheet

end OutlineIndex
