namespace SignedHttp.Crypto

def powMod (m base e : Nat) : Nat :=
  if e = 0 then 1 % m
  else
    let half := powMod m (base * base % m) (e / 2)
    if e % 2 == 1 then base * half % m else half
termination_by e
decreasing_by omega

/-- The inverse of `a` modulo a prime, which is zero for zero. -/
def invMod (p a : Nat) : Nat :=
  powMod p (a % p) (p - 2)

def subMod (m a b : Nat) : Nat :=
  (a + m - b) % m

end SignedHttp.Crypto
