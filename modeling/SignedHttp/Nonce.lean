import SignedHttp.Text.Hex
import SignedHttp.Time.Instant

namespace SignedHttp

structure Nonce where
  client : String
  value : String
  /-- The last instant at which it is remembered. -/
  expiration : Instant
  deriving DecidableEq

namespace Nonce

def expired (n : Nonce) (now : Instant) : Bool :=
  n.expiration < now

def key (n : Nonce) : String × String :=
  (n.client, n.value)

/-- A fresh value from sixteen random bytes: the digits of a random UUID. -/
def freshValue (random : Bytes) : String :=
  String.ofList <| Text.hex <| random.mapIdx (fun i b =>
    if i == 6 then (b &&& 0x0f) ||| 0x40 else if i == 8 then (b &&& 0x3f) ||| 0x80 else b)

end Nonce

end SignedHttp
