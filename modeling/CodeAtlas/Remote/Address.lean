import CodeAtlas.Text.Blank
/-!
Addresses of servers: which of them a request can be sent to at all.
-/

namespace CodeAtlas.Remote

/-- The address without slashes at its end. -/
def trimAddress (address : String) : String := Text.trimRightWhile (· == '/') address

/-- What follows the name of a protocol in any case and its colon. -/
def afterScheme? (scheme : String) (cs : List Char) : Option (List Char) :=
  let n := scheme.length
  if (cs.take n).map Char.toLower == scheme.toList && (cs.drop n).head? == some ':' then
    some (cs.drop (n + 1))
  else none

def isSlash (c : Char) : Bool := c == '/' || c == '\\'

/-- Whether a character may stand in the name of a host. -/
def isHostChar (c : Char) : Bool :=
  c.toNat > 0x20 && c != '\x7f' && !"#%/:<>?@[\\]^|".toList.contains c

/-- Whether a port is a number that is not too large; it may be missing. -/
def isPort (cs : List Char) : Bool :=
  cs.all Char.isDigit && cs.foldl (fun n d => n * 10 + (d.toNat - 48)) 0 ≤ 65535

/-- Whether a host with its port, if it is told, is one. -/
def isHost (cs : List Char) : Bool :=
  match cs with
  | '[' :: rest =>
    let port := (rest.dropWhile (· != ']')).drop 1
    rest.contains ']' && (port.isEmpty || (port.head? == some ':' && isPort (port.drop 1)))
  | cs =>
    let host := cs.takeWhile (· != ':')
    !host.isEmpty && host.all isHostChar && isPort ((cs.dropWhile (· != ':')).drop 1)

/-- Whether a request can be sent to an address: it names a protocol of the web and a host. -/
def isAddress (address : String) : Bool :=
  let cs := Text.dropRightWhile (·.toNat ≤ 0x20) (address.toList.dropWhile (·.toNat ≤ 0x20))
  let cs := cs.filter fun c => c != '\t' && c != '\n' && c != '\r'
  match (afterScheme? "https" cs).orElse fun _ => afterScheme? "http" cs with
  | none => false
  | some rest =>
    let place := (rest.dropWhile isSlash).takeWhile fun c => !(isSlash c || c == '?' || c == '#')
    let host := (place.reverse.takeWhile (· != '@')).reverse
    isHost host

/-- Whether a text can be sent along with a request. -/
def isHeaderText (s : String) : Bool :=
  s.toList.all fun c => c == '\t' || (c.toNat ≥ 0x20 && c != '\x7f')

end CodeAtlas.Remote
