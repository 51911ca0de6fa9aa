import Comrade.Bep44.Evict

/-!
# Write tokens

A node answers a get with a token, and lets a put through that brings one back: the
hash of a secret, the address it was handed to and the target it was handed out for.
The secret is drawn anew from time to time, and the one before it stays good.

* `grantOf` is the token in the answer to a get, `presented` the one that a put
  brings to its token check.
* `secretsAfter` is what the rotations that were seen leave of the two secrets.
* `writeToken_accepted`: the check passes for what a get from the same address for
  the same target would be answered with under one of the two secrets.  Of the
  tokens that were handed out, it passes for those handed to that address for that
  target with at most one rotation since, and for no others.

The hash is eight bytes long, so that it cannot be injective as such: what is asked
of it is that no two of the texts that one run hashes share a token.
-/

namespace Comrade
namespace Bep44

open Lib Bencode

variable {cap : Nat}

/-! ## What is hashed -/

/-- The text that a token is the hash of. -/
def tokenText (secret : Bytes) (addr : Sockaddr) (target : Id20) : Bytes :=
  secret ++ (addrBytes addr).elim [] Prod.snd ++ target.toList

/-- The token of a text. -/
def tokenHash (C : Crypto) (text : Bytes) : Bytes := (C.sha1 text).toList.take b44TokenLen

theorem tokenMake_eq (C : Crypto) (secret : Bytes) (addr : Sockaddr) (target : Id20) :
    tokenMake C secret addr target = tokenHash C (tokenText secret addr target) := rfl

theorem tokenHash_length (C : Crypto) (text : Bytes) : (tokenHash C text).length = b44TokenLen := by
  rw [tokenHash, List.length_take, Vector.length_toList]
  rfl

/-- The bytes of an address tell its family, which has its own length. -/
theorem addrBytes_inj {a b : Sockaddr}
    (h : (addrBytes a).elim [] Prod.snd = (addrBytes b).elim [] Prod.snd) :
    addrBytes a = addrBytes b := by
  have hlen := congrArg List.length h
  cases a with
  | inet x port =>
      cases b with
      | inet y port' => simpa [addrBytes] using h
      | inet6 y port' => simp [addrBytes] at hlen
      | other => simp [addrBytes] at hlen
  | inet6 x port =>
      cases b with
      | inet y port' => simp [addrBytes] at hlen
      | inet6 y port' => simpa [addrBytes] using h
      | other => simp [addrBytes] at hlen
  | other =>
      cases b with
      | inet y port' => simp [addrBytes] at hlen
      | inet6 y port' => simp [addrBytes] at hlen
      | other => rfl

/-- A text has one reading: secrets are of one length, and so are targets. -/
theorem tokenText_inj {secret secret' : Bytes} {a a' : Sockaddr} {t t' : Id20}
    (hlen : secret.length = secret'.length)
    (h : tokenText secret a t = tokenText secret' a' t') :
    secret = secret' ∧ addrBytes a = addrBytes a' ∧ t = t' := by
  unfold tokenText at h
  obtain ⟨hfront, ht⟩ := List.append_inj' h (by simp)
  obtain ⟨hsecret, haddr⟩ := List.append_inj hfront hlen
  exact ⟨hsecret, addrBytes_inj haddr, Vector.toList_inj.mp ht⟩

theorem tokenText_congr (secret : Bytes) {a a' : Sockaddr} (h : addrBytes a = addrBytes a')
    (t : Id20) : tokenText secret a t = tokenText secret a' t := by
  unfold tokenText
  rw [h]

theorem tokenValid_iff (C : Crypto) (secrets : Bytes × Bytes) (tok : Bytes) (addr : Sockaddr)
    (target : Id20) :
    tokenValid C secrets tok addr target = true ↔
      tok = tokenMake C secrets.1 addr target ∨ tok = tokenMake C secrets.2 addr target := by
  have hlen : ∀ secret, (tokenMake C secret addr target).length = b44TokenLen :=
    fun secret => tokenHash_length C _
  unfold tokenValid
  rw [Bool.and_eq_true, Bool.or_eq_true, beq_iff_eq, beq_iff_eq, beq_iff_eq]
  constructor
  · rintro ⟨-, h | h⟩
    · exact .inl h.symm
    · exact .inr h.symm
  · rintro (rfl | rfl)
    · exact ⟨hlen _, .inl rfl⟩
    · exact ⟨hlen _, .inr rfl⟩

/-! ## Gets and puts -/

/-- A token, and whom and what it is for. -/
structure Grant where
  target : Id20
  addr : Sockaddr
  token : Bytes
  deriving DecidableEq

/-- The target that a get asks for. -/
def askedTarget (args : Bytes) : Option Id20 :=
  match argStr args (ascii ['t', 'a', 'r', 'g', 'e', 't']) with
  | .present t => if t.length = 20 then some (Vector.ofFn fun i => t.getD i.val 0) else none
  | _ => none

/-- The token in the answer to a get, where one is sent. -/
def grantOf (C : Crypto) (e : Engine cap) : ServerEvent → Option Grant
  | .input buf addr env =>
      match (bep44Input C e buf addr env).reply e, (queryArgs buf).bind askedTarget with
      | some (.got r), some target =>
          if (bep44Input C e buf addr env).sent.isSome = true then
            some { target := target, addr := addr, token := r.token }
          else none
      | _, _ => none
  | _ => none

/-- `handle_put` up to its token check. -/
def putRead (C : Crypto) (args : Bytes) : Except B44Error PutReq := do
  require (bencCanonical args) ⟨203, "put arguments are not canonical bencode"⟩
  let v ← (argRaw args (ascii ['v'])).elim (.error ⟨203, "put requires v"⟩) .ok
  let k ← (argStr args (ascii ['k'])).optional "k must be a string"
  let sig ← (argStr args (ascii ['s', 'i', 'g'])).optional "sig must be a string"
  let salt ← (argStr args (ascii ['s', 'a', 'l', 't'])).optional "salt must be a string"
  let seq ← (argInt args (ascii ['s', 'e', 'q'])).optional "seq must be an integer"
  let cas ← (argInt args (ascii ['c', 'a', 's'])).optional "cas must be an integer"
  let isMutable := putMutable k sig seq cas
  require (!isMutable || putComplete k sig seq) ⟨203, "incomplete or malformed mutable put"⟩
  return {
    isMutable := isMutable
    target := if isMutable = true then targetN C (k.getD []) (salt.getD []) else C.sha1 v
    k := k.getD [], sig := sig.getD [], salt := salt.getD [], seq := seq.getD 0
    cas := cas, v := v }

/-- `handle_put` from there to the store. -/
def putRest (C : Crypto) (r : PutReq) : Except B44Error PutReq := do
  require (decide (r.v.length ≤ bep44MaxValue)) ⟨205, "message (v field) too big"⟩
  require (decide (r.salt.length ≤ bep44MaxSalt)) ⟨207, "salt (salt field) too big"⟩
  require (!r.isMutable || (sigBufferN (bep44MaxValue + 128) r.salt r.seq r.v).any fun msg =>
    C.ed25519Check r.sig r.k msg) ⟨206, "invalid signature"⟩
  return r

/-- The error of a token check. -/
def badToken : B44Error := ⟨203, "bad write token"⟩

/-- The token check stands between the two. -/
theorem putCheck_split (C : Crypto) (e : Engine cap) (q : B44Query) :
    putCheck C e q = (putRead C q.args >>= fun r =>
      require ((argStr q.args (ascii ['t', 'o', 'k', 'e', 'n'])).get?.any fun tok =>
        tokenValid C e.tokenSecret tok q.addr r.target) badToken >>= fun _ => putRest C r) := by
  unfold putCheck putRead
  simp only [bind_assoc, pure_bind]
  rfl

/-- The token that a put brings to its token check. -/
def putToken (C : Crypto) (addr : Sockaddr) (args : Bytes) : Option Grant :=
  if ((argStr args (ascii ['i', 'd'])).get?.any fun id => id.length == 20) = false then none
  else
    (putRead C args).toOption.bind fun r =>
      (argStr args (ascii ['t', 'o', 'k', 'e', 'n'])).get?.map fun tok =>
        { target := r.target, addr := addr, token := tok }

/-- The same of a datagram that is answered. -/
def presented (C : Crypto) (e : Engine cap) : ServerEvent → Option Grant
  | .input buf addr env =>
      if (bep44Input C e buf addr env).plan.isSome = true ∧ queryMethod buf = some true then
        (queryArgs buf).bind (putToken C addr)
      else none
  | _ => none

/-- Is the datagram refused for its token? -/
def tokenRefused (C : Crypto) (e : Engine cap) : ServerEvent → Bool
  | .input buf addr env => (bep44Input C e buf addr env).reply e == some (.error badToken)
  | _ => false

/-- A datagram that is answered is a query, answered as such. -/
theorem bep44Input_plan (C : Crypto) (e : Engine cap) (buf : Bytes) (addr : Sockaddr) (env : Env) :
    (bep44Input C e buf addr env).plan = none ∨
      ∃ bans isPut, queryMethod buf = some isPut ∧
        (bep44Input C e buf addr env).plan =
          some (queryPlan C { e with bans := bans } isPut buf addr env) := by
  unfold bep44Input queryHandle
  by_cases hy : dictStr buf (ascii ['y']) = some (ascii ['q'])
  swap
  · rw [if_neg hy]
    exact .inl rfl
  rw [if_pos hy]
  by_cases hserving : e.serving = false
  · rw [if_pos hserving]
    exact .inl rfl
  rw [if_neg hserving]
  cases queryMethod buf with
  | none => exact .inl rfl
  | some isPut =>
      dsimp only
      split_ifs
      · exact .inl rfl
      · exact .inl rfl
      · split
        · exact .inl rfl
        · exact .inr ⟨_, isPut, rfl, rfl⟩

/-- A put is answered by an acknowledgement or an error, and by none of a token. -/
theorem putStore_reply (myid : Id20) (r : PutReq) (env : Env) (s : Store cap) :
    (putStore myid r env s).2 = .ack ∨
      ∃ err, (putStore myid r env s).2 = .error err ∧ err ≠ badToken := by
  unfold putStore
  split
  · split_ifs
    · exact .inr ⟨_, rfl, by decide⟩
    · exact .inl rfl
    · exact .inr ⟨_, rfl, by decide⟩
    · exact .inl rfl
    · exact .inr ⟨_, rfl, by decide⟩
    · exact .inr ⟨_, rfl, by decide⟩
    · exact .inl rfl
  · split_ifs
    · exact .inr ⟨_, rfl, by decide⟩
    · split
      · exact .inl rfl
      · exact .inl rfl

/-- Past its token check, a put is refused for other reasons only. -/
theorem putRest_error {C : Crypto} {r : PutReq} {err : B44Error}
    (h : putRest C r = .error err) : err ≠ badToken := by
  unfold putRest require at h
  rintro rfl
  split_ifs at h <;> simp_all [badToken, bind, Except.bind, pure, Except.pure]

/-- `handle_get` hands out a token for the target it was asked for. -/
theorem handleGet_token {C : Crypto} {e : Engine cap} {q : B44Query} {env : Env} {s : Store cap}
    {r : GetReply} (h : ((handleGet C e q env).run s).2 = .got r) {t : Id20}
    (ht : askedTarget q.args = some t) : r.token = tokenMake C e.tokenSecret.1 q.addr t := by
  unfold handleGet at h
  unfold askedTarget at ht
  cases harg : argStr q.args (ascii ['t', 'a', 'r', 'g', 'e', 't']) with
  | present raw =>
      rw [harg] at h ht
      dsimp only at h ht
      by_cases hlen : raw.length = 20
      · rw [dif_pos hlen] at h
        rw [if_pos hlen] at ht
        have htarget : (⟨raw.toArray, by simpa using hlen⟩ : Id20) = t := by
          rw [← Option.some.inj ht]
          ext i hi
          simp [List.getD_eq_getElem?_getD, hlen]
        split at h
        · cases h
        · cases h
          rw [htarget]
      · rw [if_neg hlen] at ht
        cases ht
  | absent =>
      rw [harg] at ht
      cases ht
  | malformed =>
      rw [harg] at ht
      cases ht

/-- A put is not answered with a token. -/
theorem handlePut_reply (C : Crypto) (e : Engine cap) (q : B44Query) (env : Env) (s : Store cap)
    (r : GetReply) : ((handlePut C e q env).run s).2 ≠ .got r := by
  unfold handlePut
  split
  · simp [B44Plan.run]
  · rename_i req _
    show (putStore e.myid req env (storeExpire s env.now)).2 ≠ .got r
    rcases putStore_reply e.myid req env (storeExpire s env.now) with hack | ⟨err, herr, -⟩
    · rw [hack]
      simp
    · rw [herr]
      simp

theorem grantOf_input {C : Crypto} {e : Engine cap} {buf : Bytes} {addr : Sockaddr} {env : Env}
    {g : Grant} (h : grantOf C e (.input buf addr env) = some g) :
    ∃ r, (bep44Input C e buf addr env).reply e = some (.got r) ∧
      (queryArgs buf).bind askedTarget = some g.target ∧ g.addr = addr ∧ g.token = r.token := by
  simp only [grantOf] at h
  split at h
  · rename_i r target hreply htarget
    split_ifs at h
    cases h
    exact ⟨r, hreply, htarget, rfl, rfl⟩
  · cases h

/-- The token in an answer is made of the secret of the time. -/
theorem grantOf_token {C : Crypto} {e : Engine cap} {ev : ServerEvent} {g : Grant}
    (h : grantOf C e ev = some g) : g.token = tokenMake C e.tokenSecret.1 g.addr g.target := by
  cases ev with
  | input buf addr env =>
      obtain ⟨r, hreply, htarget, haddr, htoken⟩ := grantOf_input h
      obtain ⟨args, hargs, hasked⟩ := Option.bind_eq_some_iff.mp htarget
      rw [htoken, haddr]
      unfold Served.reply at hreply
      rcases bep44Input_plan C e buf addr env with hnone | ⟨bans, isPut, -, hplan⟩
      · rw [hnone] at hreply
        cases hreply
      rw [hplan, Option.map_some, Option.some.injEq, queryPlan, hargs] at hreply
      dsimp only at hreply
      split_ifs at hreply with hid hput
      · cases hreply
      · exact absurd hreply (handlePut_reply C _ _ env e.store r)
      · exact handleGet_token hreply hasked
  | _ => cases h

/-- A put that brings a token is refused for it exactly when it is not valid. -/
theorem presented_refused {C : Crypto} {e : Engine cap} {ev : ServerEvent} {p : Grant}
    (h : presented C e ev = some p) :
    tokenRefused C e ev = false ↔
      tokenValid C e.tokenSecret p.token p.addr p.target = true := by
  cases ev with
  | input buf addr env =>
      simp only [presented] at h
      split_ifs at h with hput
      obtain ⟨hplan, hmethod⟩ := hput
      obtain ⟨args, hargs, htoken⟩ := Option.bind_eq_some_iff.mp h
      unfold putToken at htoken
      split_ifs at htoken with hid
      obtain ⟨r, hread, htoken⟩ := Option.bind_eq_some_iff.mp htoken
      obtain ⟨tok, htok, rfl⟩ := Option.map_eq_some_iff.mp htoken
      have hread : putRead C args = .ok r := by
        cases hr : putRead C args with
        | error err =>
            rw [hr] at hread
            cases hread
        | ok r' =>
            rw [hr] at hread
            cases hread
            rfl
      rcases bep44Input_plan C e buf addr env with hnone | ⟨bans, isPut, hmethod', hplan'⟩
      · rw [hnone] at hplan
        cases hplan
      obtain rfl : isPut = true := by
        rw [hmethod] at hmethod'
        exact (Option.some.inj hmethod').symm
      have hcheck := putCheck_split C { e with bans := bans }
        { addr := addr, args := args, want4 := false, want6 := false }
      rw [hread, htok] at hcheck
      dsimp only [bind, Except.bind, Option.any_some] at hcheck
      simp only [tokenRefused, Served.reply]
      rw [hplan', Option.map_some, queryPlan, hargs]
      dsimp only
      rw [if_neg hid, if_pos rfl, handlePut, hcheck]
      by_cases hvalid : tokenValid C e.tokenSecret tok addr r.target = true
      · rw [require, if_pos hvalid]
        dsimp only
        refine iff_of_true ?_ hvalid
        rw [beq_eq_false_iff_ne]
        cases hrest : putRest C r with
        | error err =>
            intro heq
            cases heq
            exact putRest_error hrest rfl
        | ok r' =>
            show some (putStore e.myid r' env (storeExpire e.store env.now)).2 ≠ _
            rcases putStore_reply e.myid r' env (storeExpire e.store env.now) with
              hack | ⟨err, herr, hne⟩
            · rw [hack]
              simp
            · rw [herr]
              simpa using hne
      · rw [require, if_neg hvalid]
        dsimp only
        refine iff_of_false ?_ hvalid
        simp [B44Plan.run]
  | _ => cases h

/-! ## Rotations -/

/-- The secret that an event draws. -/
def rotatedTo (e : Engine cap) : ServerEvent → Option Bytes
  | .periodic now fresh => if e.serving = false ∨ now < e.tokenRotateMs then none else fresh
  | _ => none

/-- What happens to tokens: one is handed out, or a secret drawn. -/
inductive TokenObs where
  | granted (g : Grant)
  | rotated (fresh : Bytes)
  deriving DecidableEq

/-- What an event lets one see of that. -/
def tokenObs (C : Crypto) (e : Engine cap) (ev : ServerEvent) : Option TokenObs :=
  ((grantOf C e ev).map .granted).or ((rotatedTo e ev).map .rotated)

/-- The secret drawn, where one was. -/
def TokenObs.fresh : TokenObs → Option Bytes
  | .granted _ => none
  | .rotated fresh => some fresh

/-- The secrets drawn, oldest first. -/
def freshOf (seen : List TokenObs) : List Bytes := seen.filterMap TokenObs.fresh

/-- The secrets that were drawn one after the other push out the ones before. -/
def secretsAfter (s : Bytes × Bytes) (fresh : List Bytes) : Bytes × Bytes :=
  fresh.foldl (fun s f => (f, s.1)) s

/-- A node that goes on serving. -/
def KeepsServing : ServerEvent → Prop
  | .serve _ _ _ => False
  | _ => True

instance : DecidablePred KeepsServing
  | .serve _ _ _ => isFalse id
  | .input _ _ _ => isTrue trivial
  | .periodic _ _ => isTrue trivial
  | .ratelimit _ _ => isTrue trivial
  | .learn _ _ => isTrue trivial

theorem freshOf_append (a b : List TokenObs) : freshOf (a ++ b) = freshOf a ++ freshOf b :=
  List.filterMap_append

theorem secretsAfter_append (s : Bytes × Bytes) (a b : List Bytes) :
    secretsAfter s (a ++ b) = secretsAfter (secretsAfter s a) b := List.foldl_append

/-- The current secret is one that was drawn, the last of them. -/
theorem secretsAfter_mem (s : Bytes × Bytes) (fresh : List Bytes) :
    (secretsAfter s fresh).1 ∈ s.1 :: fresh := by
  induction fresh using List.reverseRecOn with
  | nil => simp [secretsAfter]
  | append_singleton fresh f _ =>
      rw [secretsAfter_append]
      simp [secretsAfter]

/-- One more secret leaves the current one the secret before. -/
theorem secretsAfter_recent (s : Bytes × Bytes) {fresh : List Bytes} (h : fresh.length ≤ 1) :
    s.1 = (secretsAfter s fresh).1 ∨ s.1 = (secretsAfter s fresh).2 := by
  cases fresh with
  | nil => exact .inl rfl
  | cons f fresh =>
      cases fresh with
      | nil => exact .inr rfl
      | cons g fresh => simp at h

/-- Two more leave nothing of it. -/
theorem secretsAfter_gone {s : Bytes × Bytes} {fresh : List Bytes} (h : 2 ≤ fresh.length)
    (hnew : s.1 ∉ fresh) : s.1 ≠ (secretsAfter s fresh).1 ∧ s.1 ≠ (secretsAfter s fresh).2 := by
  induction fresh using List.reverseRecOn with
  | nil => simp at h
  | append_singleton fresh g _ =>
      cases fresh using List.reverseRecOn with
      | nil => simp at h
      | append_singleton fresh f =>
          rw [secretsAfter_append, secretsAfter_append]
          simp only [List.mem_append, List.mem_singleton, not_or] at hnew
          exact ⟨hnew.2, hnew.1.2⟩

theorem serverStep_secrets (C : Crypto) {e : Engine cap} {ev : ServerEvent}
    (h : KeepsServing ev) :
    (serverStep C e ev).tokenSecret = secretsAfter e.tokenSecret (rotatedTo e ev).toList := by
  cases ev with
  | input buf addr env =>
      simp only [serverStep, bep44Input, queryHandle, rotatedTo]
      split
      · split
        · rfl
        · split
          · rfl
          · split
            · rfl
            · split
              · rfl
              · split <;> rfl
      · rfl
  | periodic now fresh =>
      simp only [serverStep, bep44Periodic, rotatedTo, tokenRotate]
      by_cases hserving : e.serving = false
      · rw [if_pos hserving, if_pos (.inl hserving)]
        rfl
      rw [if_neg hserving]
      by_cases hearly : now < e.tokenRotateMs
      · rw [if_pos hearly, if_pos (.inr hearly)]
        rfl
      rw [if_neg hearly, if_neg (not_or.mpr ⟨hserving, hearly⟩)]
      cases fresh with
      | none => rfl
      | some fresh => rfl
  | serve enable secrets now => cases h
  | ratelimit rate seconds => rfl
  | learn i c => rfl

/-- An event hands out a token, draws a secret, or neither. -/
theorem tokenObs_fresh (C : Crypto) (e : Engine cap) (ev : ServerEvent) :
    freshOf (tokenObs C e ev).toList = (rotatedTo e ev).toList := by
  cases ev with
  | periodic now fresh =>
      have hnone : grantOf C e (.periodic now fresh) = none := rfl
      rw [tokenObs, hnone, Option.map_none, Option.none_or]
      cases rotatedTo e (.periodic now fresh) <;> rfl
  | input buf addr env =>
      have hnone : rotatedTo e (.input buf addr env) = none := rfl
      rw [tokenObs, hnone, Option.map_none, Option.or_none]
      cases grantOf C e (.input buf addr env) <;> rfl
  | serve enable secrets now => rfl
  | ratelimit rate seconds => rfl
  | learn i c => rfl

theorem tokenObs_granted {C : Crypto} {e : Engine cap} {ev : ServerEvent} {g : Grant}
    (h : tokenObs C e ev = some (.granted g)) : grantOf C e ev = some g := by
  unfold tokenObs at h
  cases hgrant : grantOf C e ev with
  | none =>
      rw [hgrant, Option.map_none, Option.none_or] at h
      obtain ⟨f, -, hf⟩ := Option.map_eq_some_iff.mp h
      cases hf
  | some g' =>
      rw [hgrant] at h
      cases h
      rfl

/-! ## Whole runs -/

/-- `B44_SECRET_LEN`. -/
def b44SecretLen : Nat := 16

/-- The texts that an event hashes: that of the token it hands out, or those that it
compares a token with. -/
def hashedTexts (C : Crypto) (e : Engine cap) (ev : ServerEvent) : List Bytes :=
  ((grantOf C e ev).toList.map fun g => tokenText e.tokenSecret.1 g.addr g.target) ++
    (presented C e ev).toList.flatMap fun p =>
      [tokenText e.tokenSecret.1 p.addr p.target, tokenText e.tokenSecret.2 p.addr p.target]

/-- The texts that a run hashes. -/
def hashedBy (C : Crypto) : Engine cap → List ServerEvent → List Bytes
  | _, [] => []
  | e, ev :: evs => hashedTexts C e ev ++ hashedBy C (serverStep C e ev) evs

theorem hashedBy_concat (C : Crypto) (e : Engine cap) (evs : List ServerEvent)
    (ev : ServerEvent) :
    hashedBy C e (evs ++ [ev]) =
      hashedBy C e evs ++ hashedTexts C (run (serverStep C) e evs) ev := by
  induction evs generalizing e with
  | nil => simp [hashedBy]
  | cons x evs ih => rw [List.cons_append, hashedBy, ih, hashedBy, List.append_assoc, run_cons]

/-- What a run keeps of the tokens that were seen to be handed out. -/
structure TokenInv (C : Crypto) (e₀ e : Engine cap) (texts : List Bytes) (seen : List TokenObs) :
    Prop where
  secrets : e.tokenSecret = secretsAfter e₀.tokenSecret (freshOf seen)
  grants : ∀ a g b, seen = a ++ .granted g :: b →
    g.token = tokenHash C
        (tokenText (secretsAfter e₀.tokenSecret (freshOf a)).1 g.addr g.target) ∧
      tokenText (secretsAfter e₀.tokenSecret (freshOf a)).1 g.addr g.target ∈ texts

theorem tokenInv_run (C : Crypto) (e₀ : Engine cap) {evs : List ServerEvent}
    (hserving : ∀ ev ∈ evs, KeepsServing ev) :
    TokenInv C e₀ (run (serverStep C) e₀ evs) (hashedBy C e₀ evs)
      (observe (serverStep C) (tokenObs C) e₀ evs) := by
  induction evs using List.reverseRecOn with
  | nil =>
      refine ⟨rfl, ?_⟩
      intro a g b h
      simp at h
  | append_singleton evs ev ih =>
      have hprev := ih fun x hx => hserving x (List.mem_append_left _ hx)
      have hstep := serverStep_secrets C (e := run (serverStep C) e₀ evs)
        (hserving ev (by simp))
      rw [run_concat, observe_concat, hashedBy_concat]
      refine ⟨?_, ?_⟩
      · rw [hstep, hprev.secrets, freshOf_append, tokenObs_fresh, secretsAfter_append]
      · intro a g b hsplit
        cases hobs : tokenObs C (run (serverStep C) e₀ evs) ev with
        | none =>
            rw [hobs, Option.toList_none, List.append_nil] at hsplit
            obtain ⟨htoken, htext⟩ := hprev.grants a g b hsplit
            exact ⟨htoken, List.mem_append_left _ htext⟩
        | some o =>
            rw [hobs, Option.toList_some] at hsplit
            rcases List.eq_nil_or_concat b with rfl | ⟨b', o', rfl⟩
            · -- the last event is the one that hands it out
              obtain ⟨rfl, ho⟩ := List.append_inj' hsplit rfl
              obtain rfl := List.singleton_inj.mp ho
              have hgrant := tokenObs_granted hobs
              refine ⟨?_, List.mem_append_right _ ?_⟩
              · rw [grantOf_token hgrant, hprev.secrets]
                rfl
              · rw [hashedTexts, hgrant, ← hprev.secrets]
                simp
            · rw [List.concat_eq_append, ← List.cons_append, ← List.append_assoc] at hsplit
              obtain ⟨htoken, htext⟩ := hprev.grants a g b' (List.append_inj' hsplit rfl).1
              exact ⟨htoken, List.mem_append_left _ htext⟩

theorem secretsAfter_snd_mem (s : Bytes × Bytes) (fresh : List Bytes) :
    (secretsAfter s fresh).2 ∈ s.2 :: s.1 :: fresh := by
  induction fresh using List.reverseRecOn with
  | nil => simp [secretsAfter]
  | append_singleton fresh f _ =>
      rw [secretsAfter_append]
      have hmem := secretsAfter_mem s fresh
      refine List.mem_cons_of_mem _ ?_
      show (secretsAfter s fresh).1 ∈ s.1 :: (fresh ++ [f])
      rw [← List.cons_append]
      exact List.mem_append_left _ hmem

/-- A secret that is still one of the two was drawn last, or last but one. -/
theorem secretsAfter_since {s : Bytes × Bytes} {before after : List Bytes}
    (hdistinct : (s.2 :: s.1 :: (before ++ after)).Nodup) {secret : Bytes}
    (hsecret : secret = (secretsAfter s (before ++ after)).1 ∨
      secret = (secretsAfter s (before ++ after)).2)
    (hthen : (secretsAfter s before).1 = secret) : after.length ≤ 1 := by
  have hlater : (secretsAfter s before).1 ∉ after := by
    have hparts := (List.nodup_cons.mp hdistinct).2
    rw [← List.cons_append] at hparts
    exact fun hmem => List.disjoint_of_nodup_append hparts (secretsAfter_mem s before) hmem
  by_contra hmany
  obtain ⟨hne, hne'⟩ := secretsAfter_gone (by omega) hlater
  rw [← secretsAfter_append, hthen] at hne hne'
  rcases hsecret with h | h
  · exact hne h
  · exact hne' h

theorem presented_hashed {C : Crypto} {e : Engine cap} {ev : ServerEvent} {p : Grant}
    (h : presented C e ev = some p) {secret : Bytes}
    (hsecret : secret = e.tokenSecret.1 ∨ secret = e.tokenSecret.2) :
    tokenText secret p.addr p.target ∈ hashedTexts C e ev := by
  rw [hashedTexts, h]
  refine List.mem_append_right _ ?_
  rcases hsecret with rfl | rfl <;> simp

/-- At any point of the life of a node that keeps serving, for a put that brings a token
to its token check: it passes exactly when the token is what a get for the same target
from the same address would be answered with, under the current secret or the one
before.  So where the token was handed out at all, it passes exactly when it was handed
out for this target to this address, at whatever port, with at most one rotation since.
The secrets drawn are of their length and all different, and the texts that the run
hashes have different tokens. -/
theorem writeToken_accepted (C : Crypto) (e₀ : Engine cap) (evs : List ServerEvent)
    (hserving : ∀ ev ∈ evs, KeepsServing ev)
    (hlen : ∀ s ∈ e₀.tokenSecret.2 :: e₀.tokenSecret.1 ::
      freshOf (observe (serverStep C) (tokenObs C) e₀ evs), s.length = b44SecretLen)
    (hdistinct : (e₀.tokenSecret.2 :: e₀.tokenSecret.1 ::
      freshOf (observe (serverStep C) (tokenObs C) e₀ evs)).Nodup)
    (ev : ServerEvent)
    (hinj : Set.InjOn (tokenHash C) {x | x ∈ hashedBy C e₀ (evs ++ [ev])}) (p : Grant)
    (hput : presented C (run (serverStep C) e₀ evs) ev = some p) :
    let e := run (serverStep C) e₀ evs
    let seen := observe (serverStep C) (tokenObs C) e₀ evs
    (tokenRefused C e ev = false ↔ p.token = tokenMake C e.tokenSecret.1 p.addr p.target ∨
        p.token = tokenMake C e.tokenSecret.2 p.addr p.target) ∧
      ((∃ g, .granted g ∈ seen ∧ g.token = p.token) →
        (tokenRefused C e ev = false ↔
          ∃ a g b, seen = a ++ .granted g :: b ∧ g.token = p.token ∧ g.target = p.target ∧
            addrBytes g.addr = addrBytes p.addr ∧ (freshOf b).length ≤ 1)) := by
  intro e seen
  have hinv : TokenInv C e₀ e (hashedBy C e₀ evs) seen := tokenInv_run C e₀ hserving
  have hvalid := presented_refused hput
  rw [tokenValid_iff] at hvalid
  refine ⟨hvalid, ?_⟩
  rintro ⟨g₀, hmem, htoken₀⟩
  rw [hvalid]
  constructor
  · intro hmatch
    obtain ⟨a, b, hsplit⟩ := List.append_of_mem hmem
    refine ⟨a, g₀, b, hsplit, htoken₀, ?_⟩
    obtain ⟨hgrant, htext⟩ := hinv.grants a g₀ b hsplit
    have hfresh : freshOf seen = freshOf a ++ freshOf b := by
      rw [hsplit, freshOf_append]
      rfl
    obtain ⟨secret, hsecret, hmatch⟩ : ∃ secret, (secret = e.tokenSecret.1 ∨
        secret = e.tokenSecret.2) ∧ p.token = tokenMake C secret p.addr p.target := by
      rcases hmatch with h | h
      · exact ⟨_, .inl rfl, h⟩
      · exact ⟨_, .inr rfl, h⟩
    rw [hashedBy_concat] at hinj
    have hsame := hinj (List.mem_append_left _ htext)
      (List.mem_append_right _ (presented_hashed hput hsecret))
      (by rw [← hgrant, htoken₀, hmatch, tokenMake_eq])
    rw [hinv.secrets] at hsecret
    have hlength : (secretsAfter e₀.tokenSecret (freshOf a)).1.length = secret.length := by
      rw [hlen _ ?_, hlen secret ?_]
      · rcases hsecret with rfl | rfl
        · exact List.mem_cons_of_mem _ (secretsAfter_mem _ _)
        · exact secretsAfter_snd_mem _ _
      · refine List.mem_cons_of_mem _ ?_
        show _ ∈ e₀.tokenSecret.1 :: freshOf seen
        rw [hfresh, ← List.cons_append]
        exact List.mem_append_left _ (secretsAfter_mem _ _)
    obtain ⟨hthen, haddr, htarget⟩ := tokenText_inj hlength hsame
    have hdrawn : (e₀.tokenSecret.2 :: e₀.tokenSecret.1 :: freshOf seen).Nodup := hdistinct
    rw [hfresh] at hsecret hdrawn
    exact ⟨htarget, haddr, secretsAfter_since hdrawn hsecret hthen⟩
  · rintro ⟨a, g, b, hsplit, htoken, htarget, haddr, hrecent⟩
    obtain ⟨hgrant, -⟩ := hinv.grants a g b hsplit
    have hsecrets := hinv.secrets
    rw [hsplit, freshOf_append, secretsAfter_append] at hsecrets
    have hfresh : freshOf (.granted g :: b) = freshOf b := rfl
    rw [hfresh] at hsecrets
    rw [← htoken, hgrant, htarget, tokenText_congr _ haddr, hsecrets, ← tokenMake_eq]
    rcases secretsAfter_recent (secretsAfter e₀.tokenSecret (freshOf a)) hrecent with h | h
    · exact .inl (by rw [← h])
    · exact .inr (by rw [← h])

/-- A get for the name of a value of one byte. -/
def byteGet (v : Char) : Bytes :=
  ascii ['d', '1', ':', 'a', 'd', '2', ':', 'i', 'd', '2', '0', ':'] ++ List.replicate 20 7 ++
    ascii ['6', ':', 't', 'a', 'r', 'g', 'e', 't', '2', '0', ':'] ++
    (headHash.sha1 (ascii ['1', ':', v])).toList ++
    ascii ['e', '1', ':', 'q', '3', ':', 'g', 'e', 't', '1', ':', 't', '1', ':', 'x', '1', ':',
      'y', '1', ':', 'q', 'e']

/-- A node that has just begun to serve. -/
def newServer : Engine 1 :=
  bep44Serve (bep44Create 1 (Vector.replicate 20 0)) true
    (some (List.replicate 16 5), some (List.replicate 16 6)) 0

def testEnvAt (now : Nat) : Env := { banNow := now, now := now, cacheNow := now, allocOk := true }

/-- A get is answered, and the secret rotated. -/
def getRotate : List ServerEvent :=
  [.input (byteGet 'a') (.inet (Vector.replicate 4 8) 6881) (testEnvAt 1),
    .periodic 400000 (some (List.replicate 16 9))]

set_option maxRecDepth 4000

/-- The token still lets a put through, which comes from another port. -/
theorem writeToken_accepted_rotated :
    let put := ServerEvent.input (bytePut 'a') (.inet (Vector.replicate 4 8) 6882)
      (testEnvAt 400001)
    tokenRefused headHash (run (serverStep headHash) newServer getRotate) put = false ∧
      ∃ a g b, observe (serverStep headHash) (tokenObs headHash) newServer getRotate =
          a ++ .granted g :: b ∧ g.token = List.replicate 8 5 ∧ (freshOf b).length ≤ 1 := by
  intro put
  have hinj : ∀ x ∈ hashedBy headHash newServer (getRotate ++ [put]),
      ∀ y ∈ hashedBy headHash newServer (getRotate ++ [put]),
        tokenHash headHash x = tokenHash headHash y → x = y := by decide
  have hmain := writeToken_accepted headHash newServer getRotate (by decide)
    (by decide) (by decide) put (fun x hx y hy => hinj x hx y hy)
    { target := headHash.sha1 (ascii ['1', ':', 'a']), addr := .inet (Vector.replicate 4 8) 6882,
      token := List.replicate 8 5 } (by decide)
  have hpass : tokenRefused headHash (run (serverStep headHash) newServer getRotate) put = false :=
    by decide
  have hgrant : ∃ g, TokenObs.granted g ∈
      observe (serverStep headHash) (tokenObs headHash) newServer getRotate ∧
        g.token = List.replicate 8 5 :=
    ⟨{ target := headHash.sha1 (ascii ['1', ':', 'a'])
       addr := .inet (Vector.replicate 4 8) 6881
       token := List.replicate 8 5 }, by decide, rfl⟩
  obtain ⟨a, g, b, hsplit, htoken, -, -, hrecent⟩ := (hmain.2 hgrant).mp hpass
  exact ⟨hpass, a, g, b, hsplit, htoken, hrecent⟩

/-- A put is let through on a token that was never handed out: eight bytes that are what
a get would have been answered with. -/
theorem writeToken_guessed :
    let put := ServerEvent.input (bytePut 'a') (.inet (Vector.replicate 4 8) 6882) (testEnvAt 1)
    newServer.tokenSecret.1 ≠ newServer.tokenSecret.2 ∧
    (∀ x ∈ hashedBy headHash newServer [put], ∀ y ∈ hashedBy headHash newServer [put],
      tokenHash headHash x = tokenHash headHash y → x = y) ∧
    (presented headHash newServer put).isSome = true ∧
    tokenRefused headHash newServer put = false ∧
    observe (serverStep headHash) (tokenObs headHash) newServer [] = [] := by
  intro put
  exact ⟨by decide, by decide, by decide, by decide, rfl⟩

end Bep44
end Comrade
