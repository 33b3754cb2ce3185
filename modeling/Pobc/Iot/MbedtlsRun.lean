import Pobc.Iot.MbedtlsDecrypt
import Pobc.Iot.PolyvalSiv

/-!
# Runs of mbedTLS calls

The library keeps its tables in static memory and everything else in the contexts of its
callers. After any sequence of calls a context encrypts, or decrypts, as FIPS-197 says for
the key it was set up with last. With 128 bits this is the cipher the modes of the
repository are called with.
-/

namespace Pobc.MbedtlsAes
open Pobc.Loop Pobc.Iot

/-! ### Calls -/

/-- A call on the context `id`. Key set-ups find `pow₀` and `log₀` on the stack. -/
inductive Call
  | init (id : ℕ)
  | free (id : ℕ)
  | setkeyEnc (id : ℕ) (pow₀ log₀ : ℕ → ℕ) (key : Buffer) (keybits : ℕ)
  | setkeyDec (id : ℕ) (pow₀ log₀ : ℕ → ℕ) (key : Buffer) (keybits : ℕ)

def Call.id : Call → ℕ
  | .init id => id
  | .free id => id
  | .setkeyEnc id .. => id
  | .setkeyDec id .. => id

structure Library where
  statics : Statics
  ctxs : ℕ → Context

/-- `mbedtls_aes_free` leaves zeros, as `mbedtls_aes_init` does. -/
def Library.call (s : Library) : Call → Library
  | .init id => ⟨s.statics, Function.update s.ctxs id aesInit⟩
  | .free id => ⟨s.statics, Function.update s.ctxs id aesInit⟩
  | .setkeyEnc id pow₀ log₀ key keybits =>
    let out := MbedtlsAes.setkeyEnc pow₀ log₀ s.statics (s.ctxs id) key keybits
    ⟨out.statics, Function.update s.ctxs id out.ctx⟩
  | .setkeyDec id pow₀ log₀ key keybits =>
    let out := MbedtlsAes.setkeyDec pow₀ log₀ s.statics (s.ctxs id) key keybits
    ⟨out.statics, Function.update s.ctxs id out.ctx⟩

def Library.run (s : Library) (calls : List Call) : Library := calls.foldl Library.call s

/-! ### Static memory -/

def Done (g : Statics) : Prop := g.aesInitDone ≠ 0 ∧ Correct g.tables

theorem Done.ready {g : Statics} (h : Done g) : Ready g := fun _ => h.2

/- A key set-up with an unknown size does not touch the static memory; the others leave
finished tables. -/
theorem setkeyEnc_statics (pow₀ log₀ : ℕ → ℕ) (g : Statics) (hg : Ready g) (ctx : Context)
    (key : Buffer) (keybits : ℕ) :
    (setkeyEnc pow₀ log₀ g ctx key keybits).statics = g ∨
      Done (setkeyEnc pow₀ log₀ g ctx key keybits).statics := by
  have hdone := correct_of_ready pow₀ log₀ g hg
  rw [setkeyEnc]
  cases roundsOf keybits with
  | none => exact Or.inl rfl
  | some nr => exact Or.inr hdone

theorem setkeyDec_statics (pow₀ log₀ : ℕ → ℕ) (g : Statics) (ctx : Context) (key : Buffer)
    (keybits : ℕ) : (setkeyDec pow₀ log₀ g ctx key keybits).statics =
      (setkeyEnc pow₀ log₀ g aesInit key keybits).statics := by
  rw [setkeyDec]
  split <;> rfl

theorem call_statics (s : Library) (hs : Ready s.statics) (c : Call) :
    (s.call c).statics = s.statics ∨ Done (s.call c).statics := by
  cases c with
  | init id => exact Or.inl rfl
  | free id => exact Or.inl rfl
  | setkeyEnc id pow₀ log₀ key keybits =>
    exact setkeyEnc_statics pow₀ log₀ s.statics hs (s.ctxs id) key keybits
  | setkeyDec id pow₀ log₀ key keybits =>
    have h := setkeyEnc_statics pow₀ log₀ s.statics hs aesInit key keybits
    rw [← setkeyDec_statics pow₀ log₀ s.statics (s.ctxs id) key keybits] at h
    exact h

theorem call_ready (s : Library) (hs : Ready s.statics) (c : Call) : Ready (s.call c).statics := by
  rcases call_statics s hs c with h | h
  · rwa [h]
  · exact h.ready

theorem run_ready (s : Library) (hs : Ready s.statics) (calls : List Call) :
    Ready (s.run calls).statics := by
  induction calls generalizing s with
  | nil => exact hs
  | cons c calls ih => exact ih (s.call c) (call_ready s hs c)

/- Finished tables stay, and so do the contexts of others. -/
theorem run_kept (s : Library) (hs : Done s.statics) (id : ℕ) (calls : List Call)
    (hcalls : ∀ c ∈ calls, c.id ≠ id) :
    Done (s.run calls).statics ∧ (s.run calls).ctxs id = s.ctxs id := by
  induction calls generalizing s with
  | nil => exact ⟨hs, rfl⟩
  | cons c calls ih =>
    have hdone : Done (s.call c).statics := by
      rcases call_statics s hs.ready c with h | h
      · rwa [h]
      · exact h
    have hctx : (s.call c).ctxs id = s.ctxs id := by
      have hne : id ≠ c.id := (hcalls c List.mem_cons_self).symm
      cases c <;> exact Function.update_of_ne hne _ _
    obtain ⟨hrest, hsame⟩ := ih (s.call c) hdone fun c' hc' =>
      hcalls c' (List.mem_cons_of_mem c hc')
    exact ⟨hrest, hsame.trans hctx⟩

/-- Static memory at the start of the program: no tables yet. -/
def Fresh (s : Library) : Prop := s.statics.aesInitDone = 0

theorem Fresh.ready {s : Library} (h : Fresh s) : Ready s.statics := fun hne => absurd h hne

/-- Memory of a program that starts: all zeros. -/
def Library.start : Library :=
  let zeros : ℕ → Word := fun _ => 0
  ⟨⟨0, ⟨fun _ => 0, zeros, zeros, zeros, zeros, fun _ => 0, zeros, zeros, zeros, zeros, zeros⟩⟩,
    fun _ => aesInit⟩

/-- `c` is the last call on its context. -/
def LastCall (calls : List Call) (c : Call) : Prop :=
  ∃ before after, calls = before ++ c :: after ∧ ∀ c' ∈ after, c'.id ≠ c.id

theorem run_lastCall (s : Library) (calls before after : List Call) (c : Call)
    (hcalls : calls = before ++ c :: after) :
    s.run calls = ((s.run before).call c).run after := by
  rw [hcalls, Library.run, List.foldl_append, List.foldl_cons]
  rfl

/-! ### Encryption and decryption after a run -/

theorem crypt_lastSetkeyEnc (s : Library) (hs : Fresh s) (calls : List Call) (id : ℕ)
    (pow₀ log₀ : ℕ → ℕ) (key : Buffer) (nk : ℕ) (hnk : nk = 4 ∨ nk = 6 ∨ nk = 8)
    (hlast : LastCall calls (.setkeyEnc id pow₀ log₀ key (32 * nk))) (input output : Block) :
    cryptEcb (s.run calls).statics ((s.run calls).ctxs id) 1 input output =
      (0, Aes.cipherOf (nk + 6) (Aes.keyExpansionOf nk (nk + 6) key) input) := by
  obtain ⟨before, after, hcalls, hafter⟩ := hlast
  let s₁ := s.run before
  have hspec := setkeyEnc_spec pow₀ log₀ s₁.statics (run_ready s hs.ready before) (s₁.ctxs id) key
    nk hnk
  obtain ⟨hdone, hctx⟩ := run_kept (s₁.call (.setkeyEnc id pow₀ log₀ key (32 * nk)))
    ⟨hspec.done, hspec.correct⟩ id after hafter
  have hset : (s₁.call (.setkeyEnc id pow₀ log₀ key (32 * nk))).ctxs id =
      (setkeyEnc pow₀ log₀ s₁.statics (s₁.ctxs id) key (32 * nk)).ctx :=
    Function.update_self id _ s₁.ctxs
  rw [run_lastCall s calls before after _ hcalls, hctx, hset]
  exact Prod.ext rfl (internalAesEncrypt_encrypts _ hdone.2 nk hnk key _ hspec.ctx input output)

/- Context 1 is set up for decryption before, 0 after; the tables are computed once. -/
theorem crypt_lastSetkeyEnc_three :
    let calls : List Call := [.setkeyDec 1 id id (fun _ => 0x0f) 192,
      .setkeyEnc 1 id id (fun p => BitVec.ofNat 8 p) 256, .setkeyEnc 0 id id (fun _ => 0) 128]
    let s := Library.start.run calls
    ∀ input output, cryptEcb s.statics (s.ctxs 1) 1 input output =
      (0, Aes.cipherOf 14 (Aes.keyExpansionOf 8 14 fun p => BitVec.ofNat 8 p) input) :=
  fun input output => crypt_lastSetkeyEnc Library.start rfl _ 1 id id _ 8 (Or.inr (Or.inr rfl))
    ⟨[_], [_], rfl, by simp [Call.id]⟩ input output

theorem crypt_lastSetkeyDec (s : Library) (hs : Fresh s) (calls : List Call) (id : ℕ)
    (pow₀ log₀ : ℕ → ℕ) (key : Buffer) (nk : ℕ) (hnk : nk = 4 ∨ nk = 6 ∨ nk = 8)
    (hlast : LastCall calls (.setkeyDec id pow₀ log₀ key (32 * nk))) (input output : Block) :
    cryptEcb (s.run calls).statics ((s.run calls).ctxs id) 0
      (Aes.cipherOf (nk + 6) (Aes.keyExpansionOf nk (nk + 6) key) input) output = (0, input) := by
  obtain ⟨before, after, hcalls, hafter⟩ := hlast
  let s₁ := s.run before
  have hspec := setkeyDec_spec pow₀ log₀ s₁.statics (run_ready s hs.ready before) (s₁.ctxs id) key
    nk hnk
  obtain ⟨hdone, hctx⟩ := run_kept (s₁.call (.setkeyDec id pow₀ log₀ key (32 * nk)))
    ⟨hspec.done, hspec.correct⟩ id after hafter
  have hset : (s₁.call (.setkeyDec id pow₀ log₀ key (32 * nk))).ctxs id =
      (setkeyDec pow₀ log₀ s₁.statics (s₁.ctxs id) key (32 * nk)).ctx :=
    Function.update_self id _ s₁.ctxs
  rw [run_lastCall s calls before after _ hcalls, hctx, hset]
  exact Prod.ext rfl (internalAesDecrypt_decrypts _ hdone.2 nk hnk key _ hspec.ctx input output)

theorem crypt_lastSetkeyDec_three :
    let calls : List Call := [.setkeyEnc 1 id id (fun _ => 0x0f) 128,
      .setkeyDec 1 id id (fun p => BitVec.ofNat 8 p) 192, .free 0]
    let s := Library.start.run calls
    ∀ input output, cryptEcb s.statics (s.ctxs 1) 0 (Aes.cipherOf 12
      (Aes.keyExpansionOf 6 12 fun p => BitVec.ofNat 8 p) input) output = (0, input) :=
  fun input output => crypt_lastSetkeyDec Library.start rfl _ 1 id id _ 6 (Or.inr (Or.inl rfl))
    ⟨[_], [_], rfl, by simp [Call.id]⟩ input output

/-! ### The cipher of the modes -/

section Modes

variable (pow₀ log₀ : ℕ → ℕ) (g : Statics) (ctx : Context)

/-- What the modes use of the library: a key set-up for 128 bits, and encryption with the
context it leaves. -/
def library : Mbedtls where
  setkeyEnc _ k := (setkeyEnc pow₀ log₀ g ctx (Aes.keyBytes k 0) 128).ret
  cryptEcb k input :=
    let out := setkeyEnc pow₀ log₀ g ctx (Aes.keyBytes k 0) 128
    (cryptEcb out.statics out.ctx 1 input zeroBlock).2

theorem library_eq (hg : Ready g) : library pow₀ log₀ g ctx = ⟨fun _ _ => 0, Aes.aes128⟩ := by
  have hspec : ∀ k : Block, SetkeyEncSpec 4 (Aes.keyBytes k 0)
      (setkeyEnc pow₀ log₀ g ctx (Aes.keyBytes k 0) 128) := fun k =>
    setkeyEnc_spec pow₀ log₀ g hg ctx (Aes.keyBytes k 0) 4 (Or.inl rfl)
  have hret : (library pow₀ log₀ g ctx).setkeyEnc = fun _ _ => 0 :=
    funext fun _ => funext fun k => (hspec k).ret
  have hcrypt : (library pow₀ log₀ g ctx).cryptEcb = Aes.aes128 := by
    funext k input
    rw [← Aes.cipherOf_four k input]
    exact internalAesEncrypt_encrypts _ (hspec k).correct 4 (Or.inl rfl) _ _ (hspec k).ctx input
      zeroBlock
  rw [← hret, ← hcrypt]

/-- AES-GCM-SIV as it is compiled, with GHASH, on the AES of the library. -/
theorem aesGcmSiv_library (hg : Ready g) (c₀ : Buffer) (tag₀ : Block) (m ad : List Byte)
    (npub : Nonce) (k : Block) :
    let out := Iot.aesGcmSiv128Encrypt (library pow₀ log₀ g ctx) c₀ tag₀ (bufferOf m) m.length
      (bufferOf ad) ad.length npub k
    out.ret = 0 ∧ (bytesOf out.c m.length, out.tag) = Gcm.gcmSivEncrypt Aes.aes128 k npub m ad := by
  rw [library_eq pow₀ log₀ g ctx hg]
  have h := Iot.aesGcmSiv128Encrypt_spec ⟨fun _ _ => 0, Aes.aes128⟩ c₀ tag₀ (bufferOf m) m.length
    (bufferOf ad) ad.length npub k rfl rfl
  rw [bytesOf_bufferOf, bytesOf_bufferOf] at h
  exact ⟨h.1, h.2.1⟩

theorem aesGcmSiv_library_start :
    let out := Iot.aesGcmSiv128Encrypt (library id id Library.start.statics aesInit) (fun _ => 0)
      zeroBlock (bufferOf [0x01, 0x02]) 2 (bufferOf [0x03]) 1 (fun _ => 0) zeroBlock
    out.ret = 0 ∧ (bytesOf out.c 2, out.tag) =
      Gcm.gcmSivEncrypt Aes.aes128 zeroBlock (fun _ => 0) [0x01, 0x02] [0x03] :=
  aesGcmSiv_library id id Library.start.statics aesInit (fun h => absurd rfl h) _ _ [0x01, 0x02]
    [0x03] _ _

/-- With POLYVAL it is the AEAD of RFC 8452. -/
theorem aesGcmSiv_polyval_library (hg : Ready g) (c₀ : Buffer) (tag₀ : Block) (m ad : List Byte)
    (npub : Nonce) (k : Block) :
    let out := Polyval.aesGcmSiv128Encrypt (library pow₀ log₀ g ctx) c₀ tag₀ (bufferOf m) m.length
      (bufferOf ad) ad.length npub k
    out.ret = 0 ∧ (bytesOf out.c m.length, out.tag) = Polyval.rfcEncrypt Aes.aes128 k npub m ad := by
  rw [library_eq pow₀ log₀ g ctx hg]
  have h := Polyval.aesGcmSiv128Encrypt_spec ⟨fun _ _ => 0, Aes.aes128⟩ c₀ tag₀ (bufferOf m)
    m.length (bufferOf ad) ad.length npub k rfl rfl
  rw [bytesOf_bufferOf, bytesOf_bufferOf] at h
  exact ⟨h.1, h.2.1⟩

theorem aesGcmSiv_polyval_library_start :
    let out := Polyval.aesGcmSiv128Encrypt (library id id Library.start.statics aesInit)
      (fun _ => 0) zeroBlock (bufferOf [0x01, 0x02]) 2 (bufferOf [0x03]) 1 (fun _ => 0) zeroBlock
    out.ret = 0 ∧ (bytesOf out.c 2, out.tag) =
      Polyval.rfcEncrypt Aes.aes128 zeroBlock (fun _ => 0) [0x01, 0x02] [0x03] :=
  aesGcmSiv_polyval_library id id Library.start.statics aesInit (fun h => absurd rfl h) _ _
    [0x01, 0x02] [0x03] _ _

end Modes

end Pobc.MbedtlsAes
