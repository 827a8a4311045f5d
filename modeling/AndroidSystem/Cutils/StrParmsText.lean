import AndroidSystem.Cutils.StrParms

/-!
# Printing and parsing `str_parms`

The map of a `StrParms` takes a key to its value. Printing writes `key=value` for every entry, with `;`
between them. Parsing goes over the tokens between `;`, and a later token replaces an earlier one. So
parsing a printed map gives the map back, whatever the order of the entries was.
-/

namespace AndroidSystem.Cutils

open List Tokens Function

variable {parms : StrParms} {m : CString → Option CString}

variable {key token : CString} {l : List (Entry CString CString)}

/-! ## The map of a `StrParms` -/

theorem strHashing_cls_eq {a b : CString} : strHashing.cls a = strHashing.cls b ↔ a = b := by
  rw [Hashing.cls_eq]
  exact beq_iff_eq

/-- A map on strings as a map on classes of equal strings. -/
def liftMap (m : CString → Option CString) : KeyMap strHashing CString :=
  Quotient.lift (fun key => (m key).map some) fun _ _ hab => by
    rw [strHashing_cls_eq.1 (Hashing.cls_eq.2 hab)]

@[simp] theorem liftMap_cls (m : CString → Option CString) (key : CString) :
    liftMap m (strHashing.cls key) = (m key).map some := rfl

theorem keyMap_ext {f g : KeyMap strHashing CString}
    (hfg : ∀ key, f (strHashing.cls key) = g (strHashing.cls key)) : f = g := by
  funext q
  induction q using Quotient.inductionOn with
  | h key => exact hfg key

open Classical in
theorem update_liftMap (m : CString → Option CString) (key : CString) (v : Option CString) :
    update (liftMap m) (strHashing.cls key) (v.map some) =
      liftMap (update m key v) := by
  refine keyMap_ext ?_
  intro k
  by_cases hk : k = key
  · rw [hk, update_self, liftMap_cls, update_self]
  · rw [update_of_ne (mt strHashing_cls_eq.1 hk), liftMap_cls, liftMap_cls,
      update_of_ne hk]

/-- The entries are the pairs of the map `m`. -/
def Holds (parms : StrParms) (m : CString → Option CString) : Prop :=
  Refines strHashing parms (liftMap m)

section

variable (hp : Holds parms m)
include hp

theorem Holds.get (key : CString) : hashmapGet strHashing parms key = m key := by
  rw [Refines.get hp, liftMap_cls]
  cases m key <;> rfl

theorem Holds.size_eq {parms' : StrParms} (hp' : Holds parms' m) :
    hashmapSize parms = hashmapSize parms' := by
  rw [Refines.size_eq hp, Refines.size_eq hp']

theorem Holds.mem_entries {v : CString} :
    m key = some v ↔ ∃ e ∈ parms.entries, e.key = key ∧ e.value = some v := by
  have hrep := hp.represents key (some v)
  rw [liftMap_cls] at hrep
  constructor
  · intro hm
    obtain ⟨e, he, hkey, hv⟩ := hrep.1 (by rw [hm]; rfl)
    exact ⟨e, he, beq_iff_eq.1 hkey, hv⟩
  · rintro ⟨e, he, rfl, hv⟩
    have hsome := hrep.2 ⟨e, he, beq_self_eq_true _, hv⟩
    obtain ⟨w, hw, hwv⟩ := Option.map_eq_some_iff.1 hsome
    rw [hw, hwv]

theorem Holds.value_eq {e : Entry CString CString} (he : e ∈ parms.entries) :
    ∃ v, e.value = some v := by
  have hsome := (hp.represents e.key e.value).2 ⟨e, he, beq_self_eq_true _, rfl⟩
  rw [liftMap_cls, Option.map_eq_some_iff] at hsome
  obtain ⟨v, -, hv⟩ := hsome
  exact ⟨v, hv.symm⟩

theorem Holds.keys_ne : parms.entries.Pairwise fun a b => a.key ≠ b.key := by
  refine hp.valid.distinct.keys.imp ?_
  intro a b hab
  exact beq_eq_false_iff_ne.1 hab

end

theorem holds_of_entries (hvalid : parms.Valid strHashing)
    (hvalue : ∀ e ∈ parms.entries, ∃ v, e.value = some v)
    (hmem : ∀ key v, m key = some v ↔ ∃ e ∈ parms.entries, e.key = key ∧ e.value = some v) :
    Holds parms m := by
  refine ⟨hvalid, ?_⟩
  intro key v
  rw [liftMap_cls, Option.map_eq_some_iff]
  constructor
  · rintro ⟨w, hw, rfl⟩
    obtain ⟨e, he, hkey, hv⟩ := (hmem key w).1 hw
    exact ⟨e, he, beq_iff_eq.2 hkey, hv⟩
  · rintro ⟨e, he, hkey, hv⟩
    obtain ⟨w, hw⟩ := hvalue e he
    refine ⟨w, (hmem key w).2 ⟨e, he, beq_iff_eq.1 hkey, hw⟩, ?_⟩
    rw [← hv, hw]

/-! ## Adding and removing -/

theorem holds_strParmsCreate : Holds strParmsCreate fun _ => none := by
  have hcreate := refines_hashmapCreate (V := CString) strHashing 5
  have hempty : (fun _ => none : KeyMap strHashing CString) = liftMap fun _ => none :=
    keyMap_ext fun _ => rfl
  rwa [hempty] at hcreate

theorem Holds.put (hp : Holds parms m) (key value : CString) :
    Holds (hashmapPut strHashing parms key (some value)).2 (update m key (some value)) := by
  have hput := (Refines.put hp key (some value)).2
  rw [Holds, ← update_liftMap]
  exact hput

/-- Whether `remove_pair` goes on, and whether it removes the entry. -/
def removeGoes (ctxtKey : Option CString) (key : CString) (_value : Option CString) : Bool :=
  ctxtKey.all (· != key)

def removes (ctxtKey : Option CString) (key : CString) (_value : Option CString) : Bool :=
  ctxtKey.all (· == key)

theorem removePair_eq (ctxtKey : Option CString) :
    removePair ctxtKey =
      visiting strHashing (removeGoes ctxtKey) (removes ctxtKey) fun _ _ _ => () := by
  funext key value s
  cases ctxtKey with
  | none => rfl
  | some k =>
    by_cases hk : k = key
    · simp [removePair, visiting, removeGoes, removes, hk]
    · simp [removePair, visiting, removeGoes, removes, hk]

theorem remaining_removes (hl : l.Pairwise fun a b => a.key ≠ b.key) (ctxtKey : Option CString) :
    remaining (removeGoes ctxtKey) (removes ctxtKey) l = l.filter fun e => ctxtKey.any (· != e.key) := by
  cases ctxtKey with
  | none =>
    rw [show removeGoes none = fun _ _ => true from rfl, remaining_all]
    rfl
  | some k =>
    induction l with
    | nil => rfl
    | cons e l ih =>
      obtain ⟨hne, htail⟩ := pairwise_cons.1 hl
      rw [remaining, ih htail, filter_cons]
      by_cases hk : k = e.key
      · have hrest : l.filter (fun a => (some k).any (· != a.key)) = l := by
          rw [filter_eq_self]
          intro a ha
          simpa [hk] using hne a ha
        rw [hrest]
        simp [removeGoes, removes, hk]
      · simp [removeGoes, removes, hk]

theorem Holds.del (hp : Holds parms m) (ctxtKey : Option CString) :
    ∃ parms', strParmsDel parms ctxtKey = some parms' ∧
      Holds parms' fun key => if ctxtKey.any (· != key) then m key else none := by
  obtain ⟨parms', hloop, hvalid, hentries⟩ := hashmapForEach_visiting (removeGoes ctxtKey)
    (removes ctxtKey) (fun (_ : Unit) _ _ => ()) hp.valid () 0
  rw [remaining_removes hp.keys_ne] at hentries
  refine ⟨parms', by rw [strParmsDel, removePair_eq, ← add_zero (_ + _), hloop]; rfl, ?_⟩
  refine holds_of_entries hvalid ?_ ?_
  · intro e he
    rw [hentries, mem_filter] at he
    exact hp.value_eq he.1
  · intro key v
    rw [hentries]
    constructor
    · intro hkey
      split_ifs at hkey with hkept
      obtain ⟨e, he, rfl, hv⟩ := hp.mem_entries.1 hkey
      exact ⟨e, mem_filter.2 ⟨he, hkept⟩, rfl, hv⟩
    · rintro ⟨e, he, rfl, hv⟩
      obtain ⟨he, hkept⟩ := mem_filter.1 he
      rw [if_pos hkept]
      exact hp.mem_entries.2 ⟨e, he, rfl, hv⟩

/-- Any sequence of calls returns, and gives some map. -/
theorem Holds.run (hp : Holds parms m) (ops : List ParmsOp) :
    ∃ parms' m', parmsRun parms ops = some parms' ∧ Holds parms' m' := by
  induction ops generalizing parms m with
  | nil => exact ⟨parms, m, rfl, hp⟩
  | cons op ops ih =>
    cases op with
    | addStr key value => exact ih (hp.put key value)
    | del key =>
      obtain ⟨parms1, hdel, hp1⟩ := hp.del key
      obtain ⟨parms', m', hrun, hp'⟩ := ih hp1
      refine ⟨parms', m', ?_, hp'⟩
      rw [parmsRun, parmsStep, hdel]
      exact hrun

/-! ## Parsing -/

/-- A `key=value` token: the text before the first `=` is the key. A token with an empty key does not
count. -/
def tokenPair (token : CString) : Option (CString × CString) :=
  let key := token.takeWhile (· != eqSign)
  if key = [] then none else some (key, token.drop (key.length + 1))

/-- The pairs of a string, in the order of its tokens. -/
def tokenPairs (string : CString) : List (CString × CString) :=
  (string.splitOn semicolon).filterMap tokenPair

theorem idxOf?_append_cons {a : UInt8} (hkey : a ∉ key) (rest : CString) :
    (key ++ a :: rest).idxOf? a = some key.length := by
  induction key with
  | nil => simp [idxOf?_cons]
  | cons b key ih =>
    rw [mem_cons, not_or] at hkey
    rw [cons_append, idxOf?_cons, ih hkey.2, if_neg (by simpa using Ne.symm hkey.1)]
    rfl

theorem tokenPair_append (hkey : eqSign ∉ key) (value : CString) :
    tokenPair (key ++ eqSign :: value) = if key = [] then none else some (key, value) := by
  have htake : (key ++ eqSign :: value).takeWhile (· != eqSign) = key := by
    rw [takeWhile_append_of_pos, takeWhile_cons_of_neg (by simp), append_nil]
    intro a ha
    rw [bne_iff_ne]
    rintro rfl
    exact hkey ha
  rw [tokenPair, htake, ← drop_drop, drop_left, drop_one, tail_cons]

theorem token_cases (hne : token ≠ []) :
    (∃ key value, token = key ++ eqSign :: value ∧ eqSign ∉ key) ∨
    (eqSign ∉ token ∧ tokenPair token = some (token, [])) := by
  by_cases hmem : eqSign ∈ token
  · obtain ⟨key, value, hsplit, hkey⟩ := eq_append_cons_of_mem hmem
    exact .inl ⟨key, value, hsplit, hkey⟩
  · refine .inr ⟨hmem, ?_⟩
    have htake : token.takeWhile (· != eqSign) = token := by
      rw [takeWhile_eq_self_iff]
      intro a ha
      rw [bne_iff_ne]
      rintro rfl
      exact hmem ha
    rw [tokenPair, htake, if_neg hne, drop_eq_nil_of_le (Nat.le_succ _)]

theorem addToken_eq (parms : StrParms) (hne : token ≠ []) :
    addToken parms token = (tokenPair token).elim parms fun pair =>
      (hashmapPut strHashing parms pair.1 (some pair.2)).2 := by
  obtain ⟨key, value, rfl, hkey⟩ | ⟨hnot, hpair⟩ := token_cases hne
  · rw [addToken, idxOf?_append_cons hkey, tokenPair_append hkey]
    cases key with
    | nil => rfl
    | cons a key => simp
  · have hnone : token.idxOf? eqSign = none := by
      rw [idxOf?_eq_none_iff]
      exact hnot
    rw [addToken, hnone, hpair]
    rfl

/-- The tokens up to some point give the pairs up to that point. -/
theorem holds_foldl_addToken (l : List CString) (hl : ∀ token ∈ l, token ≠ []) :
    Holds (l.foldl addToken strParmsCreate) (lastValue (l.filterMap tokenPair)) := by
  induction l using reverseRecOn with
  | nil => exact holds_strParmsCreate
  | append_singleton l token ih =>
    have hprev := ih fun t ht => hl t (mem_append_left _ ht)
    rw [foldl_append, foldl_cons, addToken_eq _ (hl token (by simp)), filterMap_append]
    cases hpair : tokenPair token with
    | none =>
      rw [filterMap_cons_none hpair, filterMap_nil, append_nil]
      exact hprev
    | some pair =>
      rw [filterMap_cons_some hpair, filterMap_nil, lastValue_concat]
      exact hprev.put pair.1 pair.2

/-- Parsing gives each key the value of its last token. -/
theorem holds_strParmsCreateStr (string : CString) :
    Holds (strParmsCreateStr string) (lastValue (tokenPairs string)) := by
  have hpairs : tokenPairs string = (tokens semicolon string).filterMap tokenPair := by
    rw [tokenPairs, tokens, filterMap_filter]
    congr 1
    funext token
    cases token <;> rfl
  rw [strParmsCreateStr, foldTokens_eq addToken (Nat.lt_succ_self _), hpairs]
  refine holds_foldl_addToken _ ?_
  intro token htoken
  rw [tokens, mem_filter] at htoken
  simpa using htoken.2

/-! ## Printing -/

/-- The text of an entry. -/
def entryText (e : Entry CString CString) : CString := e.key ++ eqSign :: e.value.getD []

theorem combineStrings_eq :
    combineStrings = visiting strHashing (fun _ _ => true) (fun _ _ => false)
      fun (old : Option CString) key value =>
        some (old.getD [] ++ (if old.isSome then [semicolon] else []) ++ key ++ [eqSign] ++
          value.getD []) := by
  rfl

theorem intercalate_append_cons (sep a b : CString) (l : List CString) :
    intercalate sep ((a ++ b) :: l) = a ++ intercalate sep (b :: l) := by
  cases l with
  | nil => simp
  | cons c l => simp [intercalate_cons_cons]

theorem foldl_combine (l : List (Entry CString CString)) (old : CString) :
    l.foldl (fun (old : Option CString) e =>
      some (old.getD [] ++ (if old.isSome then [semicolon] else []) ++ e.key ++ [eqSign] ++
        e.value.getD [])) (some old) =
      some (intercalate [semicolon] (old :: l.map entryText)) := by
  induction l generalizing old with
  | nil => simp
  | cons e l ih =>
    rw [foldl_cons, map_cons]
    simp only [Option.getD_some, Option.isSome_some, if_true]
    have htext : old ++ [semicolon] ++ e.key ++ [eqSign] ++ e.value.getD [] =
        old ++ [semicolon] ++ entryText e := by
      simp [entryText]
    rw [ih, htext, intercalate_append_cons, intercalate_cons_cons]

theorem Holds.toStr (hp : Holds parms m) :
    strParmsToStr parms = some (intercalate [semicolon] (parms.entries.map entryText)) := by
  obtain ⟨parms', hloop, -, -⟩ := hashmapForEach_visiting (fun _ _ => true) (fun _ _ => false)
    (fun (old : Option CString) key value =>
      some (old.getD [] ++ (if old.isSome then [semicolon] else []) ++ key ++ [eqSign] ++
        value.getD [])) hp.valid none 0
  rw [visited_all, add_zero, ← combineStrings_eq] at hloop
  have hsize : hashmapSize parms = parms.entries.length := hp.valid.size_eq
  rw [strParmsToStr, hsize, hloop]
  cases parms.entries with
  | nil => rfl
  | cons e l =>
    rw [foldl_cons, foldl_combine]
    simp [entryText]

/-- A key that printing and parsing keep. -/
def GoodKey (key : CString) : Prop := key ≠ [] ∧ eqSign ∉ key ∧ semicolon ∉ key

theorem tokenPairs_intercalate (hkey : ∀ e ∈ l, GoodKey e.key)
    (hvalue : ∀ e ∈ l, semicolon ∉ e.value.getD []) :
    tokenPairs (intercalate [semicolon] (l.map entryText)) = l.map fun e => (e.key, e.value.getD []) := by
  have hpair : ∀ e ∈ l, tokenPair (entryText e) = some (e.key, e.value.getD []) := by
    intro e he
    rw [entryText, tokenPair_append (hkey e he).2.1, if_neg (hkey e he).1]
  cases l with
  | nil => rfl
  | cons e l =>
    have hnot : ∀ t ∈ (e :: l).map entryText, semicolon ∉ t := by
      intro t ht
      obtain ⟨a, ha, rfl⟩ := mem_map.1 ht
      rw [entryText, mem_append, mem_cons, not_or, not_or]
      exact ⟨(hkey a ha).2.2, by decide, hvalue a ha⟩
    rw [tokenPairs, splitOn_intercalate semicolon hnot (by simp), filterMap_map]
    rw [← filterMap_eq_map]
    exact filterMap_congr hpair

/-- **Round trip.** A map built by any sequence of calls, with such keys and values, is printed to a
string that is parsed into the same map. And parsing any string gives each key the value of its last
token. -/
theorem strParms_roundTrip (ops : List ParmsOp) :
    (∃ parms, parmsRun strParmsCreate ops = some parms ∧
      ((∀ e ∈ parms.entries, GoodKey e.key ∧ semicolon ∉ e.value.getD []) →
        ∃ string, strParmsToStr parms = some string ∧
          hashmapSize (strParmsCreateStr string) = hashmapSize parms ∧
          ∀ key, hashmapGet strHashing (strParmsCreateStr string) key =
            hashmapGet strHashing parms key)) ∧
    ∀ string key, hashmapGet strHashing (strParmsCreateStr string) key =
      lastValue (tokenPairs string) key := by
  refine ⟨?_, fun string key => (holds_strParmsCreateStr string).get key⟩
  obtain ⟨parms, m, hrun, hp⟩ := holds_strParmsCreate.run ops
  refine ⟨parms, hrun, ?_⟩
  intro hgood
  refine ⟨_, hp.toStr, ?_⟩
  have hparsed := holds_strParmsCreateStr (intercalate [semicolon] (parms.entries.map entryText))
  rw [tokenPairs_intercalate (fun e he => (hgood e he).1) fun e he => (hgood e he).2] at hparsed
  have hmap : lastValue (parms.entries.map fun e => (e.key, e.value.getD [])) = m := by
    funext key
    refine Option.ext ?_
    intro v
    rw [lastValue_eq_some (pairwise_map.2 hp.keys_ne), hp.mem_entries, mem_map]
    constructor
    · rintro ⟨e, he, heq⟩
      obtain ⟨rfl, rfl⟩ := Prod.mk.inj heq
      obtain ⟨v, hv⟩ := hp.value_eq he
      exact ⟨e, he, rfl, by rw [hv]; rfl⟩
    · rintro ⟨e, he, rfl, hv⟩
      exact ⟨e, he, by rw [hv]; rfl⟩
  rw [hmap] at hparsed
  refine ⟨hparsed.size_eq hp, ?_⟩
  intro key
  rw [hparsed.get, hp.get]

instance (key : CString) : Decidable (GoodKey key) := inferInstanceAs (Decidable (_ ∧ _))

/-- The calls `add("a", "1=2")`, `add("b", "x")`, `add("c", "")` and `del("b")`. -/
theorem strParms_roundTrip_calls :
    ∃ parms, parmsRun strParmsCreate [.addStr [97] [49, 61, 50], .addStr [98] [120], .addStr [99] [],
        .del (some [98])] = some parms ∧
      ∃ string, strParmsToStr parms = some string ∧
        ∀ key, hashmapGet strHashing (strParmsCreateStr string) key =
          hashmapGet strHashing parms key := by
  obtain ⟨parms, hrun, hround⟩ := (strParms_roundTrip [.addStr [97] [49, 61, 50], .addStr [98] [120],
    .addStr [99] [], .del (some [98])]).1
  have hgood : ((parmsRun strParmsCreate [.addStr [97] [49, 61, 50], .addStr [98] [120],
      .addStr [99] [], .del (some [98])]).all fun parms => parms.entries.all fun e =>
        decide (GoodKey e.key ∧ semicolon ∉ e.value.getD [])) = true := by
    decide +kernel
  rw [hrun, Option.all_some, all_eq_true] at hgood
  obtain ⟨string, hstring, -, hget⟩ := hround fun e he => of_decide_eq_true (hgood e he)
  exact ⟨parms, hrun, string, hstring, hget⟩

end AndroidSystem.Cutils
