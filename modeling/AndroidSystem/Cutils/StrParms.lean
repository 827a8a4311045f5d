import AndroidSystem.Cutils.HashmapForEach
import AndroidSystem.Lib.Tokens

/-!
# `str_parms`

A model of `libcutils/str_parms.c`: strings of the form `key=value;key=value` and the map they stand
for. A C string is the list of the bytes before its terminator. Allocation does not fail, so values in
the map are never `NULL`.
-/

namespace AndroidSystem.Cutils

open Tokens

abbrev CString : Type := List UInt8

abbrev StrParms : Type := Hashmap CString CString

/-- The characters `=` and `;`. -/
def eqSign : UInt8 := 61

def semicolon : UInt8 := 59

/-- The djb hash of a string. -/
def strHashFn (str : CString) : Int32 :=
  (str.foldl (fun (hash : UInt32) (p : UInt8) => ((hash <<< 5) + hash) + p.toInt8.toInt32.toUInt32)
    5381).toInt32

/-- `str_hash_fn` and `str_eq`. -/
def strHashing : Hashing CString where
  hash := strHashFn
  equals a b := a == b
  equals_refl a := beq_self_eq_true a
  equals_symm hab := by rw [beq_iff_eq] at hab ⊢; exact hab.symm
  equals_trans hab hbc := by rw [beq_iff_eq] at hab hbc ⊢; exact hab.trans hbc
  hash_eq hab := by rw [beq_iff_eq.1 hab]

def strParmsCreate : StrParms := hashmapCreate 5

/-! ## Adding and removing -/

/-- The callback `remove_pair`. Without a key it removes all entries. -/
def removePair (ctxtKey : Option CString) (key : CString) (_value : Option CString)
    (s : StrParms × Unit) : Bool × (StrParms × Unit) :=
  match ctxtKey with
  | none => (true, ((hashmapRemove strHashing s.1 key).2, s.2))
  | some k => if k = key then (false, ((hashmapRemove strHashing s.1 key).2, s.2)) else (true, s)

/-- `str_parms_del`. The number of steps suffices for every loop over the entries. -/
def strParmsDel (parms : StrParms) (key : Option CString) : Option StrParms :=
  (hashmapForEach (removePair key) (parms.size + parms.bucketCount) parms ()).map (·.1)

/-- `str_parms_add_str` keeps a copy of the value, and of the key if it is new. -/
def strParmsAddStr (parms : StrParms) (key value : CString) : StrParms :=
  (hashmapPut strHashing parms key (some value)).2

/-! ## Parsing -/

/-- The body of the loop of `str_parms_create_str`, for one token. -/
def addToken (parms : StrParms) (kvpair : CString) : StrParms :=
  match kvpair.idxOf? eqSign with
  | some 0 => parms
  | some eq => (hashmapPut strHashing parms (kvpair.take eq) (some (kvpair.drop (eq + 1)))).2
  | none => (hashmapPut strHashing parms kvpair (some [])).2

/-- `str_parms_create_str`. A string has fewer tokens than it has bytes and a terminator. -/
def strParmsCreateStr (string : CString) : StrParms :=
  foldTokens semicolon addToken (string.length + 1) strParmsCreate string

/-! ## Printing -/

/-- The callback `combine_strings`, with `*old_str` as its context. -/
def combineStrings (key : CString) (value : Option CString) (s : StrParms × Option CString) :
    Bool × (StrParms × Option CString) :=
  (true, (s.1, some ((s.2.getD []) ++ (if s.2.isSome then [semicolon] else []) ++ key ++ [eqSign] ++
    value.getD [])))

def strParmsToStr (parms : StrParms) : Option CString :=
  if hashmapSize parms > 0 then
    (hashmapForEach combineStrings (parms.size + parms.bucketCount) parms none).bind (·.2)
  else some []

/-! ## Sequences of calls -/

/-- A call of `str_parms_add_str` or of `str_parms_del`. -/
inductive ParmsOp where
  | addStr (key value : CString)
  | del (key : Option CString)
  deriving DecidableEq

def parmsStep (parms : StrParms) : ParmsOp → Option StrParms
  | .addStr key value => some (strParmsAddStr parms key value)
  | .del key => strParmsDel parms key

def parmsRun (parms : StrParms) : List ParmsOp → Option StrParms
  | [] => some parms
  | op :: ops => (parmsStep parms op).bind (parmsRun · ops)

end AndroidSystem.Cutils
