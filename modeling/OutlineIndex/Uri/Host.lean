import OutlineIndex.Text.Lines
import OutlineIndex.Uri.Percent

namespace OutlineIndex.Host

def isHex (c : Char) : Bool := (Percent.digit? c).isSome

def isDecimalOctet (s : List Char) : Bool :=
  s ≠ [] && s.all Char.isDigit && s.length ≤ 3 && (s.length = 1 || s.head? ≠ some '0') &&
    s.foldl (fun n c => 10 * n + (c.toNat - 48)) 0 ≤ 255

def isIpv4 (s : List Char) : Bool :=
  let octets := Text.split '.' s
  octets.length = 4 && octets.all isDecimalOctet

def isHextet (s : List Char) : Bool := s ≠ [] && s.length ≤ 4 && s.all isHex

/-- Eight groups of hexadecimal digits, where one `::` stands for at least one group of zeros. -/
def groupsValid (groups : List (List Char)) : Bool :=
  let inner := groups.drop 1 |>.dropLast
  match inner.findIdx? (· = []) with
  | none => groups.length = 8 && groups.all isHextet
  | some k =>
    let high := groups.take (k + 1)
    let low := groups.drop (k + 2)
    let high := if high.head? = some [] then high.tail else high
    let low := if low.getLast? = some [] then low.dropLast else low
    high.all isHextet && low.all isHextet && high.length + low.length < 8

def isIpv6 (s : List Char) : Bool :=
  let address := s.takeWhile (· ≠ '%')
  let zone := s.drop address.length
  let zoneOk := zone = [] || (zone.length > 1 && !(zone.drop 1).contains '%')
  let groups := Text.split ':' address
  let last := groups.getLast?.getD []
  let groups' :=
    if last.contains '.' then
      if isIpv4 last then groups.dropLast ++ [['0'], ['0']] else []
    else groups
  zoneOk && 3 ≤ groups.length && groups'.length ≤ 9 && groupsValid groups'

/-- The letter v, hexadecimal digits, a dot, and at least one character. -/
def isFuture (s : List Char) : Bool :=
  let version := (s.drop 1).takeWhile isHex
  let rest := s.drop (version.length + 1)
  version ≠ [] && rest.head? = some '.' && rest.length > 1 && !(rest.drop 1).contains '\n'

/-- Characters that normalise to a text with one of the delimiters in it. -/
def delimiterLikes : List Nat :=
  [0x2047, 0x2048, 0x2049, 0x2100, 0x2101, 0x2105, 0x2106, 0x2A74, 0xFE13, 0xFE16, 0xFE55, 0xFE56,
    0xFE5F, 0xFE6B, 0xFF03, 0xFF0F, 0xFF1A, 0xFF1F, 0xFF20]

def valid (host : List Char) : Bool :=
  let opened := host.contains '['
  let closed := host.contains ']'
  let inner := ((host.dropWhile (· ≠ '[')).drop 1).takeWhile (· ≠ ']')
  opened == closed &&
    (!opened || (if inner.head? = some 'v' then isFuture inner else isIpv6 inner)) &&
    !host.any fun c => delimiterLikes.contains c.toNat

end OutlineIndex.Host
