import Typhoon.Provider.Names

/-!
# The TLS handshake of a provider

`verify_certificate` and `on_tls_init` of `src/provider/provider.cpp`. `on_tls_init` asks for the
peer's certificate to be verified and leaves the verdict to `verify_certificate`, which is called for
each certificate of the chain, from the root to the leaf, with the verdict of the library so far. Its
comments describe a check of that verdict and, at the leaf, of the names. Its body accepts every call,
so the handshake completes with every chain, and it authenticates the host exactly on the chains
whose every call passes the check described (`handshake_authenticates_iff`).
-/

namespace Typhoon.Provider

/-- What a call of the verify callback reads: the depth of the certificate in the chain, 0 at the
leaf, and the certificate. -/
structure VerifyContext where
  error_depth : ℕ
  current_cert : X509

/-- `verify_certificate`. -/
def verifyCertificate (_hostname : CString) (_preverified : Bool) (_ctx : VerifyContext) : Bool :=
  true

/-- The options that `on_tls_init` sets. -/
inductive SslOption
  | default_workarounds
  | no_sslv2
  | no_sslv3
  | single_dh_use

/-- Whether the certificate of the peer is verified. -/
inductive VerifyMode
  | verify_none
  | verify_peer

/-- A TLS context. -/
structure Context where
  options : List SslOption
  verify_mode : VerifyMode
  verify_callback : Option (Bool → VerifyContext → Bool)
  verify_file : Option String

/-- A new context: nothing is verified. -/
def Context.sslv23 : Context := ⟨[], .verify_none, none, none⟩

/-- `on_tls_init`, where `loads` says of each file of CA certificates whether it can be loaded. The
exception of one that cannot is caught, and the context is returned without it. -/
def onTlsInit (hostname : CString) (loads : String → Bool) : Context :=
  let ctx :=
    { Context.sslv23 with
      options := [.default_workarounds, .no_sslv2, .no_sslv3, .single_dh_use]
      verify_mode := .verify_peer
      verify_callback := some (verifyCertificate hostname) }
  if loads "ca-chain.cert.pem" then { ctx with verify_file := some "ca-chain.cert.pem" } else ctx

/-- A certificate that a server presents, and whether the library's own checks passed it. -/
structure Presented where
  cert : X509
  preverified : Bool

/-- The chain that a server presents: its own certificate, and those of the issuers up to the root. -/
structure Chain where
  leaf : Presented
  issuers : List Presented

namespace Chain

/-- The certificates of a chain, each at the index of its depth. -/
def certs (chain : Chain) : List Presented := chain.leaf :: chain.issuers

/-- The calls of the verify callback, from the root to the leaf. -/
def calls (chain : Chain) : List (Bool × VerifyContext) :=
  (chain.certs.zipIdx.map fun x => (x.1.preverified, ⟨x.2, x.1.cert⟩)).reverse

end Chain

/-- Whether a handshake with the server of a chain completes, as far as its certificates decide: every
call of the callback returns true, if the peer is verified. -/
def handshake (ctx : Context) (chain : Chain) : Bool :=
  match ctx.verify_mode, ctx.verify_callback with
  | .verify_none, _ => true
  | .verify_peer, none => chain.calls.all fun call => call.1
  | .verify_peer, some callback => chain.calls.all fun call => callback call.1 call.2

/-- A certificate that names a host, by its subject alternative names or by its common name. -/
def Named (hostname : CString) (cert : X509) : Prop :=
  SanMatch hostname cert.names ∨ CommonNameMatch hostname cert.subject_name

/-- A chain that authenticates a host: every certificate is trusted, and the leaf names the host. -/
structure Authenticates (hostname : CString) (chain : Chain) : Prop where
  trusted : ∀ presented ∈ chain.certs, presented.preverified = true
  named : Named hostname chain.leaf.cert

/-- A call that the comments of `verify_certificate` let pass: the certificate is preverified and, at
the leaf, names the host. -/
def Passes (hostname : CString) (call : Bool × VerifyContext) : Prop :=
  call.1 = true ∧ (call.2.error_depth = 0 → Named hostname call.2.current_cert)

/-- There is a call for each certificate, with its depth. -/
theorem mem_calls_iff (chain : Chain) (call : Bool × VerifyContext) :
    call ∈ chain.calls ↔ ∃ presented, chain.certs[call.2.error_depth]? = some presented ∧
      call.1 = presented.preverified ∧ call.2.current_cert = presented.cert := by
  unfold Chain.calls
  rw [List.mem_reverse, List.mem_map]
  constructor
  · rintro ⟨⟨presented, depth⟩, hmem, rfl⟩
    exact ⟨presented, List.mem_zipIdx_iff_getElem?.1 hmem, rfl, rfl⟩
  · rintro ⟨presented, hget, hpre, hcert⟩
    refine ⟨(presented, call.2.error_depth), List.mem_zipIdx_iff_getElem?.2 hget, ?_⟩
    rw [← hpre, ← hcert]

/-- A chain authenticates a host exactly when all of its calls pass. -/
theorem authenticates_iff (hostname : CString) (chain : Chain) :
    Authenticates hostname chain ↔ ∀ call ∈ chain.calls, Passes hostname call := by
  constructor
  · intro h call hcall
    obtain ⟨presented, hget, hpre, hcert⟩ := (mem_calls_iff chain call).1 hcall
    refine ⟨hpre.trans (h.trusted presented (List.mem_of_getElem? hget)), fun hdepth => ?_⟩
    rw [hdepth] at hget
    -- The certificate at depth 0 is the leaf.
    obtain rfl : chain.leaf = presented := Option.some.inj hget
    rw [hcert]
    exact h.named
  · intro h
    constructor
    · intro presented hmem
      obtain ⟨depth, hget⟩ := List.mem_iff_getElem?.1 hmem
      exact (h (presented.preverified, ⟨depth, presented.cert⟩)
        ((mem_calls_iff chain _).2 ⟨presented, hget, rfl, rfl⟩)).1
    · exact (h (chain.leaf.preverified, ⟨0, chain.leaf.cert⟩)
        ((mem_calls_iff chain _).2 ⟨chain.leaf, rfl, rfl, rfl⟩)).2 rfl

/-- The check that the comments of `verify_certificate` describe, and that its body has commented
out. -/
def describedCheck (hostname : CString) (preverified : Bool) (ctx : VerifyContext) : Bool :=
  if ctx.error_depth = 0 ∧ preverified then
    verifySubjectAlternativeName hostname ctx.current_cert ||
      verifyCommonName hostname ctx.current_cert
  else
    preverified

/-- The check described lets only calls pass that may. -/
theorem passes_of_describedCheck {hostname : CString} {call : Bool × VerifyContext}
    (h : describedCheck hostname call.1 call.2 = true) : Passes hostname call := by
  unfold describedCheck at h
  split at h
  case isTrue hleaf =>
    refine ⟨hleaf.2, fun _ => ?_⟩
    rcases Bool.or_eq_true_iff.1 h with h | h
    · exact .inl (sanMatch_of_verify h)
    · exact .inr ((verifyCommonName_iff hostname _).1 h)
  case isFalse hleaf =>
    exact ⟨h, fun hdepth => absurd ⟨hdepth, h⟩ hleaf⟩

/-- With the check described as its callback, a context completes a handshake only with a chain that
authenticates the host. -/
theorem authenticates_of_describedCheck {hostname : CString} {loads : String → Bool} {chain : Chain}
    (h : handshake
      { onTlsInit hostname loads with verify_callback := some (describedCheck hostname) } chain =
        true) : Authenticates hostname chain := by
  have hmode : (onTlsInit hostname loads).verify_mode = .verify_peer := by
    unfold onTlsInit
    split <;> rfl
  simp only [handshake, hmode, List.all_eq_true] at h
  exact (authenticates_iff hostname chain).2 fun call hcall =>
    passes_of_describedCheck (h call hcall)

/-- The handshake completes with every chain. -/
theorem handshake_onTlsInit (hostname : CString) (loads : String → Bool) (chain : Chain) :
    handshake (onTlsInit hostname loads) chain = true := by
  unfold onTlsInit
  split <;> exact List.all_eq_true.2 fun _ _ => rfl

/-- A completed handshake authenticates the host exactly on the chains whose every call is one that
the comments of `verify_certificate` let pass. -/
theorem handshake_authenticates_iff (hostname : CString) (loads : String → Bool) (chain : Chain) :
    (handshake (onTlsInit hostname loads) chain = true → Authenticates hostname chain) ↔
      ∀ call ∈ chain.calls, Passes hostname call := by
  rw [← authenticates_iff]
  exact ⟨fun h => h (handshake_onTlsInit hostname loads chain), fun h _ => h⟩

/-- A self-made certificate without names is accepted for the host `a`. -/
theorem handshake_not_authenticates :
    handshake (onTlsInit ⟨[97], by decide⟩ fun _ => true) ⟨⟨⟨none, []⟩, false⟩, []⟩ = true ∧
      ¬ Authenticates ⟨[97], by decide⟩ ⟨⟨⟨none, []⟩, false⟩, []⟩ := by
  refine ⟨rfl, fun h => ?_⟩
  exact absurd (h.trusted _ List.mem_cons_self) (by decide)

end Typhoon.Provider
