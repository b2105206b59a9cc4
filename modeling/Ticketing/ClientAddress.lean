import Ticketing.Base.Text

/-!
# The address behind a request

`client_ip` of `app/api/deps.py`.  Every trusted proxy appends the address it has seen to `X-Forwarded-For`,
behind whatever the client sent.  With as many proxies as the settings declare, the entry counted from the
right is the one the first of them appended, and nothing in front of it can move it: blank entries are dropped
on both sides of the count (`client_ip_not_forgeable`).
-/

namespace Ticketing

open Text

/-- The entries of `X-Forwarded-For` that are not blank. -/
def forwardedHops (forwarded : String) : List String := ((split ',' forwarded).filter fun h => strip h ≠ "").map strip

/-- `client_ip`: `trusted` is `TRUSTED_PROXY_COUNT`, `forwarded` the header, `client` the peer of the socket. -/
def clientIp (trusted : Int) (forwarded client : Option String) : String :=
  if trusted > 0 then
    match forwarded with
    | none => client.getD "unknown"
    | some forwarded =>
      if forwarded = "" then client.getD "unknown"
      else
        -- no hop is left when every entry is blank
        ((forwardedHops forwarded)[((forwardedHops forwarded).length - trusted).toNat]?).getD (client.getD "unknown")
  else client.getD "unknown"

/-- The key of `enforce_ip_rate_limit`. -/
def ipRateKey (trusted : Int) (bucket : String) (forwarded client : Option String) : String :=
  bucket ++ ":" ++ clientIp trusted forwarded client

/-- The header that arrives when the proxies have appended their addresses to what the client sent, if anything. -/
def forwardedHeader (sent : Option String) (appended : List String) : String := join ',' (sent.toList ++ appended)

theorem forwardedHops_append (s t : String) :
    forwardedHops (s ++ String.singleton ',' ++ t) = forwardedHops s ++ forwardedHops t := by
  rw [forwardedHops, split_append, List.filter_append, List.map_append]
  rfl

theorem forwardedHops_join {appended : List String} (hne : appended ≠ []) (hcomma : ∀ a ∈ appended, ',' ∉ a.toList)
    (hblank : ∀ a ∈ appended, strip a ≠ "") : forwardedHops (join ',' appended) = appended.map strip := by
  have hkept : (appended.filter fun h => strip h ≠ "") = appended := List.filter_eq_self.2 fun a ha => by
    simpa using hblank a ha
  rw [forwardedHops, split_join hne hcomma, hkept]

/-- Whatever the client sent stands in front of the addresses of the proxies. -/
theorem forwardedHops_header (sent : Option String) {appended : List String} (hne : appended ≠ [])
    (hcomma : ∀ a ∈ appended, ',' ∉ a.toList) (hblank : ∀ a ∈ appended, strip a ≠ "") :
    ∃ front, forwardedHops (forwardedHeader sent appended) = front ++ appended.map strip := by
  cases sent with
  | none => exact ⟨[], forwardedHops_join hne hcomma hblank⟩
  | some s =>
    refine ⟨forwardedHops s, ?_⟩
    rw [forwardedHeader, Option.toList_some, List.singleton_append, join_cons hne, forwardedHops_append,
      forwardedHops_join hne hcomma hblank]

/-- Behind `k ≥ 1` trusted proxies the address of a request is the first one they appended, without the blanks
around it, whatever the client sent; so two requests that differ only there are the same to every rate limit.
-/
theorem client_ip_not_forgeable (appended : List String) (first : String)
    (hcomma : ∀ a ∈ first :: appended, ',' ∉ a.toList)
    (hblank : ∀ a ∈ first :: appended, strip a ≠ "") (sent sent' client client' : Option String) :
    clientIp (first :: appended).length (some (forwardedHeader sent (first :: appended))) client = strip first ∧
    ∀ bucket, ipRateKey (first :: appended).length bucket (some (forwardedHeader sent (first :: appended))) client =
      ipRateKey (first :: appended).length bucket (some (forwardedHeader sent' (first :: appended))) client' := by
  have hip : ∀ sent client, clientIp (first :: appended).length
      (some (forwardedHeader sent (first :: appended))) client = strip first := by
    intro sent client
    obtain ⟨front, hops⟩ := forwardedHops_header sent (List.cons_ne_nil _ _) hcomma hblank
    have hne : forwardedHeader sent (first :: appended) ≠ "" := by
      intro hempty
      rw [hempty] at hops
      have hnil : forwardedHops "" = [] := by decide
      rw [hnil] at hops
      simp at hops
    have hindex : ((front ++ (first :: appended).map strip).length -
        ((first :: appended).length : Int)).toNat = front.length := by
      simp only [List.length_append, List.length_map]
      omega
    have hpos : ((first :: appended).length : Int) > 0 := by simp only [List.length_cons]; omega
    rw [clientIp, if_pos hpos, if_neg hne, hops, hindex, List.getElem?_append_right (Nat.le_refl _), Nat.sub_self]
    rfl
  refine ⟨hip sent client, fun bucket => ?_⟩
  rw [ipRateKey, ipRateKey, hip, hip]

theorem client_ip_not_forgeable_two_proxies :
    clientIp 2 (some "9.9.9.9,, ,evil, 203.0.113.7,10.0.0.1") (some "10.0.0.2") = "203.0.113.7" ∧
    ipRateKey 2 "login" (some "9.9.9.9,, ,evil, 203.0.113.7,10.0.0.1") (some "10.0.0.2") =
      ipRateKey 2 "login" (some " 203.0.113.7,10.0.0.1") (some "10.0.0.2") := by
  have hcomma : ∀ a ∈ [" 203.0.113.7", "10.0.0.1"], ',' ∉ a.toList := by decide +kernel
  have hblank : ∀ a ∈ [" 203.0.113.7", "10.0.0.1"], strip a ≠ "" := by decide +kernel
  have hsent : forwardedHeader (some "9.9.9.9,, ,evil")
      [" 203.0.113.7", "10.0.0.1"] = "9.9.9.9,, ,evil, 203.0.113.7,10.0.0.1" := by
    decide +kernel
  have hnone : forwardedHeader none [" 203.0.113.7", "10.0.0.1"] = " 203.0.113.7,10.0.0.1" := by decide +kernel
  have hfirst : strip " 203.0.113.7" = "203.0.113.7" := by decide +kernel
  obtain ⟨hip, hkey⟩ := client_ip_not_forgeable ["10.0.0.1"] " 203.0.113.7" hcomma hblank
    (some "9.9.9.9,, ,evil") none
    (some "10.0.0.2") (some "10.0.0.2")
  rw [hsent, hfirst] at hip
  have hlogin := hkey "login"
  rw [hsent, hnone] at hlogin
  exact ⟨hip, hlogin⟩

end Ticketing
