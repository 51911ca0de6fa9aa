import Comrade.Bep44.Server

/-!
# What a put does

A put is checked in full before the store is looked at.  `putCheck_ok` says what
a put that passed has been found to be, and `putStore_cases` the ways it can
then end.

* `ItemValid` is what an item must be to be held under its target.
* `put_atomic`: an error leaves the store as it was, `cas` is honoured, and a
  put with any mutable field is never stored as an immutable item.
-/

namespace Comrade
namespace Bep44

open Lib Bencode

variable {cap : Nat}

/-! ## The checks of a put -/

/-- The text that a signature covers. -/
def sigText (salt : Bytes) (seq : Int) (v : Bytes) : Bytes :=
  (if salt = [] then [] else ascii ['4', ':', 's', 'a', 'l', 't'] ++ strEncode salt) ++
    ascii ['3', ':', 's', 'e', 'q'] ++ (Benc.int seq).encode ++ ascii ['1', ':', 'v'] ++ v

/-- A signature buffer that fits holds that text. -/
theorem sigBufferN_eq {dstLen : Nat} {salt v msg : Bytes} {seq : Int}
    (h : sigBufferN dstLen salt seq v = some msg) : msg = sigText salt seq v := by
  unfold sigBufferN at h
  dsimp only at h
  split_ifs at h with hsalt herr herr
  · obtain rfl := Option.some.inj h
    rw [Bool.not_eq_true] at herr
    obtain ⟨herr, hv⟩ := bencRawAdd_ok herr
    obtain ⟨herr, hkey⟩ := bencRawAdd_ok herr
    obtain ⟨herr, hseq⟩ := bencRawAdd_ok herr
    obtain ⟨-, hhead⟩ := bencRawAdd_ok herr
    rw [hv, hkey, bencIntAdd, hseq, hhead, sigText, if_pos hsalt, Benc.encode]
    simp [bencBufInit]
  · obtain rfl := Option.some.inj h
    rw [Bool.not_eq_true] at herr
    obtain ⟨herr, hv⟩ := bencRawAdd_ok herr
    obtain ⟨herr, hkey⟩ := bencRawAdd_ok herr
    obtain ⟨herr, hseq⟩ := bencRawAdd_ok herr
    obtain ⟨herr, hhead⟩ := bencRawAdd_ok herr
    obtain ⟨herr, hsaltAdd⟩ := bencStrAdd_ok herr
    obtain ⟨-, hsaltKey⟩ := bencRawAdd_ok herr
    rw [hv, hkey, bencIntAdd, hseq, hhead, hsaltAdd, hsaltKey, sigText, if_neg hsalt,
      Benc.encode, strEncode]
    simp [bencBufInit]

/-- A mutable item as it may be held. -/
structure MutableValid (C : Crypto) (it : B44Item) : Prop where
  target_eq : it.target = C.sha1 (it.k ++ it.salt)
  signed : C.ed25519Check it.sig it.k (sigText it.salt it.seq it.v) = true
  seq_nonneg : 0 ≤ it.seq
  v_le : it.v.length ≤ bep44MaxValue
  salt_le : it.salt.length ≤ bep44MaxSalt

/-- An item as it may be held: a mutable one is signed under the key its target
comes from, an immutable one is named by its value. -/
def ItemValid (C : Crypto) (it : B44Item) : Prop :=
  (it.isMutable = true → MutableValid C it) ∧
    (it.isMutable = false → it.target = C.sha1 it.v)

theorem ItemValid.refresh {C : Crypto} {it : B44Item} (h : ItemValid C it) (t : Nat) :
    ItemValid C { it with expiresMs := t } := by
  refine ⟨fun hm => ?_, fun hm => h.2 hm⟩
  obtain ⟨h₁, h₂, h₃, h₄, h₅⟩ := h.1 hm
  exact ⟨h₁, h₂, h₃, h₄, h₅⟩

theorem bind_ok {ε α β : Type} {x : Except ε α} {f : α → Except ε β} {b : β}
    (h : (x >>= f) = .ok b) : ∃ a, x = .ok a ∧ f a = .ok b := by
  cases x with
  | error e => cases h
  | ok a => exact ⟨a, rfl, h⟩

theorem require_ok {b : Bool} {e : B44Error} {u : Unit} (h : require b e = .ok u) : b = true := by
  unfold require at h
  split_ifs at h with hb
  exact hb

/-- An argument that may be left out is there as the dictionary has it, or the
dictionary does not have it. -/
theorem optional_ok {α : Type} {get : Bytes → Option α} {args key : Bytes} {msg : String}
    {o : Option α} (h : (argRead get args key).optional msg = .ok o) :
    argRead get args key = o.elim .absent .present ∧
      (o = none → bencDictFind args key = none) := by
  cases ha : argRead get args key with
  | present a =>
      rw [ha] at h
      cases h
      exact ⟨rfl, by simp⟩
  | absent =>
      rw [ha] at h
      cases h
      refine ⟨rfl, fun _ => ?_⟩
      unfold argRead at ha
      cases hf : bencDictFind args key with
      | none => rfl
      | some val =>
          simp only [hf] at ha
          cases hg : get val with
          | none => simp [hg] at ha
          | some a => simp [hg] at ha
  | malformed =>
      rw [ha] at h
      cases h

/-- What a put that passed its checks has been found to be. -/
structure PutOk (C : Crypto) (args : Bytes) (r : PutReq) : Prop where
  canonical : bencCanonical args = true
  cas_eq : argInt args (ascii ['c', 'a', 's']) = r.cas.elim .absent .present
  immutable : r.isMutable = false → ∀ key ∈ [ascii ['k'], ascii ['s', 'i', 'g'],
    ascii ['s', 'e', 'q'], ascii ['c', 'a', 's']], bencDictFind args key = none
  valid : ∀ now, ItemValid C (r.item now)

theorem putCheck_ok {C : Crypto} {e : Engine cap} {q : B44Query} {r : PutReq}
    (h : putCheck C e q = .ok r) : PutOk C q.args r := by
  unfold putCheck at h
  obtain ⟨_, hcanon, h⟩ := bind_ok h
  obtain ⟨v, -, h⟩ := bind_ok h
  obtain ⟨k, hk, h⟩ := bind_ok h
  obtain ⟨sig, hsig, h⟩ := bind_ok h
  obtain ⟨salt, -, h⟩ := bind_ok h
  obtain ⟨seq, hseq, h⟩ := bind_ok h
  obtain ⟨cas, hcas, h⟩ := bind_ok h
  obtain ⟨_, hcomplete, h⟩ := bind_ok h
  obtain ⟨_, -, h⟩ := bind_ok h
  obtain ⟨_, hvlen, h⟩ := bind_ok h
  obtain ⟨_, hsalt, h⟩ := bind_ok h
  obtain ⟨_, hsigned, h⟩ := bind_ok h
  have hcomplete := require_ok hcomplete
  have hvlen := of_decide_eq_true (require_ok hvlen)
  have hsalt := of_decide_eq_true (require_ok hsalt)
  have hsigned := require_ok hsigned
  obtain rfl := Except.ok.inj h
  refine ⟨require_ok hcanon, (optional_ok hcas).1, ?_, ?_⟩
  · intro himm key hkey
    simp only [putMutable, Bool.or_eq_false_iff, Option.isSome_eq_false_iff,
      Option.isNone_iff_eq_none] at himm
    obtain ⟨⟨⟨hk0, hsig0⟩, hseq0⟩, hcas0⟩ := himm
    simp only [List.mem_cons, List.not_mem_nil, or_false] at hkey
    rcases hkey with rfl | rfl | rfl | rfl
    · exact (optional_ok hk).2 hk0
    · exact (optional_ok hsig).2 hsig0
    · exact (optional_ok hseq).2 hseq0
    · exact (optional_ok hcas).2 hcas0
  · intro now
    by_cases hm : putMutable k sig seq cas = true
    · refine ⟨fun _ => ?_, fun hf => ?_⟩
      · -- a mutable put is complete, and its signature covers what is stored
        simp only [hm, Bool.not_true, Bool.false_or] at hcomplete hsigned
        obtain ⟨msg, hmsg, hcheck⟩ := (Option.any_eq_true _ _).mp hsigned
        rw [sigBufferN_eq hmsg] at hcheck
        have hpos : 0 ≤ seq.getD 0 := by
          simp only [putComplete, Bool.and_eq_true] at hcomplete
          obtain ⟨n, rfl, hn⟩ := (Option.any_eq_true _ _).mp hcomplete.2
          exact of_decide_eq_true hn
        simp only [PutReq.item, hm, if_true, targetN]
        exact ⟨rfl, hcheck, hpos, hvlen, hsalt⟩
      · simp [PutReq.item, hm] at hf
    · refine ⟨fun hf => ?_, fun _ => ?_⟩
      · simp [PutReq.item, hm, itemNew] at hf
      · simp [PutReq.item, hm, itemNew]

@[simp] theorem PutReq.item_target (r : PutReq) (now : Nat) : (r.item now).target = r.target := by
  unfold PutReq.item
  split_ifs <;> rfl

@[simp] theorem PutReq.item_isMutable (r : PutReq) (now : Nat) :
    (r.item now).isMutable = r.isMutable := by
  unfold PutReq.item
  split_ifs with hm
  · exact hm.symm
  · simpa [itemNew] using hm

theorem PutReq.item_seq {r : PutReq} (hm : r.isMutable = true) (now : Nat) :
    (r.item now).seq = r.seq := by
  rw [PutReq.item, if_pos hm]

/-! ## What a put does to the store -/

/-- The ways a put can end once the store has been expired: refused with the
store untouched, refreshed, replaced by a newer version under the right `cas`,
or stored as a new item. -/
theorem putStore_cases (myid : Id20) (r : PutReq) (env : Env) (s : Store cap) :
    ((putStore myid r env s).1 = s) ∨
    (∃ i it, s i = some it ∧ it.target = r.target ∧ it.isMutable = r.isMutable ∧
      (r.isMutable = true → ∀ cas ∈ r.cas, cas = it.seq) ∧
      putStore myid r env s =
        (Function.update s i (some { it with expiresMs := env.now + b44ItemTtlMs }), .ack)) ∨
    (∃ i it, s i = some it ∧ it.target = r.target ∧ it.isMutable = true ∧ r.isMutable = true ∧
      it.seq < r.seq ∧ (∀ cas ∈ r.cas, cas = it.seq) ∧
      putStore myid r env s = (Function.update s i (some (r.item env.now)), .ack)) ∨
    (∃ i, (∀ j it, s j = some it → it.target ≠ r.target) ∧
      putStore myid r env s = (Function.update s i (some (r.item env.now)), .ack)) := by
  unfold putStore
  cases hat : storeItemAt s r.target with
  | some iit =>
      obtain ⟨i, it⟩ := iit
      obtain ⟨hi, htarget⟩ := storeItemAt_some hat
      dsimp only
      by_cases hkind : it.isMutable ≠ r.isMutable
      · rw [if_pos hkind]
        exact .inl rfl
      rw [if_neg hkind]
      rw [not_not] at hkind
      by_cases himm : it.isMutable = false
      · rw [if_pos himm]
        refine .inr (.inl ⟨i, it, hi, htarget, hkind, ?_, rfl⟩)
        rw [← hkind, himm]
        simp
      rw [if_neg himm]
      have hm : it.isMutable = true := by simpa using himm
      by_cases hcas : (r.cas.any fun cas => decide (cas ≠ it.seq)) = true
      · rw [if_pos hcas]
        exact .inl rfl
      rw [if_neg hcas]
      have hcas' : ∀ cas ∈ r.cas, cas = it.seq := by
        intro cas hmem
        by_contra hne
        exact hcas ((Option.any_eq_true _ _).mpr ⟨cas, hmem, by simpa using hne⟩)
      split_ifs with hsame hold hmem
      · exact .inr (.inl ⟨i, it, hi, htarget, hkind, fun _ => hcas', rfl⟩)
      · exact .inl rfl
      · exact .inl rfl
      · exact .inr (.inr (.inl ⟨i, it, hi, htarget, hm, hkind ▸ hm, by omega, hcas', rfl⟩))
  | none =>
      dsimp only
      by_cases hmem : env.allocOk = false
      · rw [if_pos hmem]
        exact .inl rfl
      rw [if_neg hmem]
      cases hfree : storeFreeSlot s myid r.target with
      | mk s' at' =>
          rcases storeFreeSlot_frame hfree with ⟨rfl, rfl⟩ | ⟨i, rfl, hupd⟩
          · exact .inl rfl
          · refine .inr (.inr (.inr ⟨i, fun j it hj => storeItemAt_none hat hj, ?_⟩))
            dsimp only
            rw [hupd]

/-! ## What a query comes to -/

/-- The plans of `query_handle`: refused by its checks, a get that leaves the
store as it is, or a put that passed its checks. -/
theorem queryPlan_cases (C : Crypto) (e : Engine cap) (isPut : Bool) (buf : Bytes)
    (addr : Sockaddr) (env : Env) :
    (∃ err, queryPlan C e isPut buf addr env = .answer (.error err)) ∨
    (∃ reply : Store cap → GetReply,
      queryPlan C e isPut buf addr env = .store env.now fun s => (s, .got (reply s))) ∨
    (∃ args r, queryArgs buf = some args ∧
      putCheck C e { addr := addr, args := args, want4 := false, want6 := false } = .ok r ∧
      queryPlan C e isPut buf addr env = .store env.now (putStore e.myid r env)) := by
  unfold queryPlan
  cases hargs : queryArgs buf with
  | none => exact .inl ⟨_, rfl⟩
  | some args =>
      dsimp only
      split_ifs with hid hput
      · exact .inl ⟨_, rfl⟩
      · unfold handlePut
        cases hcheck :
            putCheck C e { addr := addr, args := args, want4 := false, want6 := false } with
        | error err => exact .inl ⟨_, rfl⟩
        | ok r => exact .inr (.inr ⟨args, r, rfl, hcheck, rfl⟩)
      · unfold handleGet
        split
        · split_ifs
          · dsimp only
            split
            · exact .inl ⟨_, rfl⟩
            · exact .inr (.inl ⟨_, rfl⟩)
          · exact .inl ⟨_, rfl⟩
        · exact .inl ⟨_, rfl⟩

/-- A datagram is answered by a plan that decides what becomes of the store, or
it is not answered and the store stays. -/
theorem queryHandle_cases (C : Crypto) (e : Engine cap) (buf : Bytes) (addr : Sockaddr)
    (env : Env) :
    ((queryHandle C e buf addr env).plan = none ∧
      (queryHandle C e buf addr env).engine.store = e.store) ∨
    ∃ bans isPut, (queryHandle C e buf addr env).plan =
        some (queryPlan C { e with bans := bans } isPut buf addr env) ∧
      (queryHandle C e buf addr env).engine.store =
        ((queryPlan C { e with bans := bans } isPut buf addr env).run e.store).1 := by
  unfold queryHandle
  by_cases hserving : e.serving = false
  · rw [if_pos hserving]
    exact .inl ⟨rfl, rfl⟩
  rw [if_neg hserving]
  cases queryMethod buf with
  | none => exact .inl ⟨rfl, rfl⟩
  | some isPut =>
      dsimp only
      split_ifs with hmartian hok
      · exact .inl ⟨rfl, rfl⟩
      · exact .inl ⟨rfl, rfl⟩
      · split
        · exact .inl ⟨rfl, rfl⟩
        · exact .inr ⟨_, isPut, rfl, rfl⟩

/-- The three outcomes of a datagram: the store stays or is only expired, and
where an error is answered that is all; or a put that passed its checks acts on
the expired store. -/
theorem queryHandle_store (C : Crypto) (e : Engine cap) (buf : Bytes) (addr : Sockaddr)
    (env : Env) :
    (queryHandle C e buf addr env).engine.store = e.store ∨
    (queryHandle C e buf addr env).engine.store = storeExpire e.store env.now ∨
    ∃ args r, queryArgs buf = some args ∧ PutOk C args r ∧
      (queryHandle C e buf addr env).reply e =
        some (putStore e.myid r env (storeExpire e.store env.now)).2 ∧
      (queryHandle C e buf addr env).engine.store =
        (putStore e.myid r env (storeExpire e.store env.now)).1 := by
  rcases queryHandle_cases C e buf addr env with ⟨-, hstore⟩ | ⟨bans, isPut, hplan, hstore⟩
  · exact .inl hstore
  · rcases queryPlan_cases C { e with bans := bans } isPut buf addr env with
      ⟨err, hp⟩ | ⟨reply, hp⟩ | ⟨args, r, hargs, hcheck, hp⟩
    · left
      rw [hstore, hp]
      rfl
    · right
      left
      rw [hstore, hp]
      rfl
    · right
      right
      refine ⟨args, r, hargs, putCheck_ok hcheck, ?_, ?_⟩
      · rw [Served.reply, hplan, hp]
        rfl
      · rw [hstore, hp]
        rfl

/-- The arguments dictionary of a put that passed its checks, as a value. -/
theorem PutOk.dict {C : Crypto} {buf args : Bytes} {r : PutReq} (hargs : queryArgs buf = some args)
    (hr : PutOk C args r) :
    ∃ kvs, (Benc.dict kvs).WellFormed ∧ (Benc.dict kvs).nesting ≤ bencMaxDepth ∧
      args = (Benc.dict kvs).encode := by
  have hhead : args.head? = some (ch 'd') := by
    have := (Option.filter_eq_some_iff.mp hargs).2
    simp only [Bool.and_eq_true, beq_iff_eq] at this
    exact this.2
  obtain ⟨kvs, hwf, hnest, henc⟩ := exists_dict_of_canonical hr.canonical hhead
  exact ⟨kvs, hwf, hnest, henc.symm⟩

/-- A put that passed its checks carries the `cas` its arguments have. -/
theorem PutOk.cas_of_present {C : Crypto} {args : Bytes} {r : PutReq} (hr : PutOk C args r)
    {cas : Int} (hcas : argInt args (ascii ['c', 'a', 's']) = .present cas) :
    r.cas = some cas ∧ r.isMutable = true := by
  have hsome : r.cas = some cas := by
    have := hr.cas_eq
    rw [hcas] at this
    cases hc : r.cas with
    | none => simp [hc] at this
    | some c => simpa [hc] using this.symm
  refine ⟨hsome, ?_⟩
  by_contra hm
  have hnone := hr.immutable (by simpa using hm) (ascii ['c', 'a', 's']) (by simp)
  simp [argInt, argRead, hnone] at hcas

/-- An error is answered only by a query that has at most expired the store. -/
theorem queryHandle_error {C : Crypto} {e : Engine cap} {buf : Bytes} {addr : Sockaddr}
    {env : Env} {err : B44Error}
    (h : (queryHandle C e buf addr env).reply e = some (.error err)) :
    (queryHandle C e buf addr env).engine.store = e.store ∨
      (queryHandle C e buf addr env).engine.store = storeExpire e.store env.now := by
  rcases queryHandle_store C e buf addr env with hstore | hstore | ⟨args, req, -, -, hreply, hstore⟩
  · exact .inl hstore
  · exact .inr hstore
  · rw [h] at hreply
    rcases putStore_cases e.myid req env (storeExpire e.store env.now) with
      hput | ⟨_, _, _, _, _, _, hput⟩ | ⟨_, _, _, _, _, _, _, _, hput⟩ | ⟨_, _, hput⟩
    · exact .inr (hstore.trans hput)
    all_goals
      rw [hput] at hreply
      cases hreply

/-- An item that was not there before came with a put that passed its checks and
was acknowledged; where it took the place of an item under its own target, the
put's `cas` was that item's number. -/
theorem queryHandle_change {C : Crypto} {e : Engine cap} {buf : Bytes} {addr : Sockaddr}
    {env : Env} {i : Fin cap} {it' : B44Item}
    (hnew : (queryHandle C e buf addr env).engine.store i = some it')
    (hold : e.store i ≠ some it') :
    ∃ args req, queryArgs buf = some args ∧ PutOk C args req ∧
      (queryHandle C e buf addr env).reply e = some .ack ∧
      it'.isMutable = req.isMutable ∧ it'.target = req.target ∧
      ∀ it, e.store i = some it → it.expired env.now = false → it.target = req.target →
        req.isMutable = true → ∀ cas ∈ req.cas, cas = it.seq := by
  have hback : ∀ it, storeExpire e.store env.now i = some it → e.store i = some it :=
    fun it hi => (storeExpire_eq_some_iff.mp hi).1
  -- a write to one slot is the only thing that can have put the item there
  have hwrite : ∀ {i₀ : Fin cap} {x : Option B44Item},
      (queryHandle C e buf addr env).engine.store =
        Function.update (storeExpire e.store env.now) i₀ x → i = i₀ ∧ x = some it' := by
    intro i₀ x hstore
    rw [hstore] at hnew
    by_cases hi : i = i₀
    · subst hi
      rw [Function.update_self] at hnew
      exact ⟨rfl, hnew⟩
    · rw [Function.update_of_ne hi] at hnew
      exact absurd (hback it' hnew) hold
  rcases queryHandle_store C e buf addr env with
    hstore | hstore | ⟨args, req, hargs, hr, hreply, hstore⟩
  · rw [hstore] at hnew
    exact absurd hnew hold
  · rw [hstore] at hnew
    exact absurd (hback it' hnew) hold
  refine ⟨args, req, hargs, hr, ?_⟩
  rcases putStore_cases e.myid req env (storeExpire e.store env.now) with hput |
    ⟨i₀, it₀, hi₀, htarget, hkind, hcas, hput⟩ |
    ⟨i₀, it₀, hi₀, htarget, -, -, -, hcas, hput⟩ | ⟨i₀, hnone, hput⟩
  · rw [hstore, hput] at hnew
    exact absurd (hback it' hnew) hold
  · -- refreshed in place
    obtain ⟨rfl, heq⟩ := hwrite (by rw [hstore, hput])
    obtain rfl := Option.some.inj heq
    refine ⟨by rw [hreply, hput], hkind, htarget, ?_⟩
    intro it hi _ _ hm
    rw [hback it₀ hi₀] at hi
    obtain rfl := Option.some.inj hi
    exact hcas hm
  · obtain ⟨rfl, heq⟩ := hwrite (by rw [hstore, hput])
    obtain rfl := Option.some.inj heq
    refine ⟨by rw [hreply, hput], req.item_isMutable _, req.item_target _, ?_⟩
    intro it hi _ _ _
    rw [hback it₀ hi₀] at hi
    obtain rfl := Option.some.inj hi
    exact hcas
  · obtain ⟨rfl, heq⟩ := hwrite (by rw [hstore, hput])
    obtain rfl := Option.some.inj heq
    refine ⟨by rw [hreply, hput], req.item_isMutable _, req.item_target _, ?_⟩
    -- the slot may have held another target's item, never this one's
    intro it hi hlive htarget
    exact absurd htarget (hnone i it (storeExpire_eq_some_iff.mpr ⟨hi, hlive⟩))

/-- The keys that make a put mutable. -/
def mutableKeys : List Bytes :=
  [ascii ['k'], ascii ['s', 'i', 'g'], ascii ['s', 'e', 'q'], ascii ['c', 'a', 's']]

/-- For every state of the store and every datagram from any address: an error
answered leaves every item that has not run out as it was, and adds none; a
query carrying `cas` changes such an item only where `cas` is its number; and
what is newly stored or refreshed as an immutable item came with an arguments
dictionary that has none of the mutable keys, well formed or not. -/
theorem put_atomic (C : Crypto) (e : Engine cap) (buf : Bytes) (addr : Sockaddr) (env : Env) :
    let r := queryHandle C e buf addr env
    (∀ err, r.reply e = some (.error err) → ∀ i it,
      (e.store i = some it → it.expired env.now = false → r.engine.store i = some it) ∧
      (r.engine.store i = some it → e.store i = some it)) ∧
    (∀ args cas, queryArgs buf = some args → argInt args (ascii ['c', 'a', 's']) = .present cas →
      ∀ i it it', e.store i = some it → it.expired env.now = false →
        r.engine.store i = some it' → it'.target = it.target → it' ≠ it → cas = it.seq) ∧
    (∀ i it, r.engine.store i = some it → it.isMutable = false → e.store i ≠ some it →
      ∃ kvs, queryArgs buf = some (Benc.dict kvs).encode ∧ (Benc.dict kvs).WellFormed ∧
        ∀ key ∈ mutableKeys, key ∉ kvs.map Prod.fst) := by
  intro r
  refine ⟨?_, ?_, ?_⟩
  · intro err herr i it
    rcases queryHandle_error herr with hstore | hstore
    · rw [hstore]
      exact ⟨fun hi _ => hi, id⟩
    · rw [hstore]
      exact ⟨fun hi hlive => storeExpire_eq_some_iff.mpr ⟨hi, hlive⟩,
        fun hi => (storeExpire_eq_some_iff.mp hi).1⟩
  · intro args cas hargs hcas i it it' hi hlive hi' htarget hne
    have hold : e.store i ≠ some it' := by
      rw [hi]
      exact fun heq => hne (Option.some.inj heq).symm
    obtain ⟨args', req, hargs', hr, -, -, htarget', hswap⟩ := queryHandle_change hi' hold
    rw [hargs] at hargs'
    obtain rfl := Option.some.inj hargs'
    obtain ⟨hsome, hm⟩ := hr.cas_of_present hcas
    exact hswap it hi hlive (htarget.symm.trans htarget') hm cas hsome
  · intro i it hi himm hold
    obtain ⟨args, req, hargs, hr, -, hkind, -, -⟩ := queryHandle_change hi hold
    obtain ⟨kvs, hwf, hnest, rfl⟩ := hr.dict hargs
    refine ⟨kvs, hargs, hwf, ?_⟩
    intro key hkey
    have hnone := hr.immutable (hkind.symm.trans himm) key hkey
    rw [bencDictFind_encode hwf hnest] at hnone
    exact not_mem_keys_of_find_none hnone

end Bep44
end Comrade
