import AndroidSystem.Cutils.HashmapRun
import Mathlib.Data.List.DropRight

/-!
# The permissions of a node

A model of `derive_permissions_locked` and `check_caller_access_to_name` of `sdcard.c`, with the map of
packages they look into. Names are compared without regard to letter case, and so are the keys of the map,
but its hash function is one of the exact bytes: a differently spelled name of a package is found only if its
hash happens to be the same.
-/

namespace AndroidSystem.Sdcard

open Cutils List

abbrev CString : Type := List UInt8

variable {c : UInt8} {a b : CString}

/-! ## Strings -/

def tolower (c : UInt8) : UInt8 := if 65 ≤ c ∧ c ≤ 90 then c + 32 else c

/-- `strcasecmp(a, b) == 0`. -/
def strcasecmpEqual (a b : CString) : Bool := a.map tolower == b.map tolower

def isspace (c : UInt8) : Bool := c == 32 || (9 ≤ c && c ≤ 13)

def isdigit (c : UInt8) : Bool := 48 ≤ c && c ≤ 57

/-- `strtoul(s, NULL, 10)`, with an `unsigned long` of 64 bits. -/
def strtoul (s : CString) : Nat :=
  let s := s.dropWhile isspace
  let digits := if s.head? = some 45 ∨ s.head? = some 43 then s.tail else s
  let n := (digits.takeWhile isdigit).foldl (fun n c => n * 10 + (c.toNat - 48)) 0
  if 2 ^ 64 ≤ n then 2 ^ 64 - 1 else if s.head? = some 45 then u64 (2 ^ 64 - n) else n

/-! ## Packages -/

/-- The sums and products of `int` wrap around. -/
def hashmapHash (key : CString) : Int32 :=
  key.foldl (fun h p => h * 31 + p.toInt8.toInt32) (Int32.ofNat key.length)

def strHash (key : CString) : Int32 := hashmapHash key

def strIcaseEquals (a b : CString) : Bool := strcasecmpEqual a b

/-- What `package_to_appid` is created with. -/
def packageFunctions : HashFunctions CString := ⟨strHash, strIcaseEquals⟩

/-- `(void*) (uintptr_t) appid`. -/
def appidPointer (appid : Int) : Option Nat := if appid = 0 then none else some (u32OfInt appid)

/-- The loop of `read_package_list`, over the names and ids that its lines give. -/
def readPackageList (packages : List (CString × Int)) : Hashmap CString Nat :=
  packages.foldl (fun map p => (hashmapPut packageFunctions map p.1 (appidPointer p.2)).2)
    (hashmapCreate 256)

/-! ## Nodes -/

inductive Perm where
  | inherit
  | preRoot
  | root
  | android
  | androidData
  | androidObb
  | androidMedia
  deriving DecidableEq

/-- What `derive_permissions_locked` sets. -/
structure Derived where
  perm : Perm
  userid : Nat
  uid : Nat
  underAndroid : Bool
  graftPath : Option CString
  deriving DecidableEq

structure Global where
  packageToAppid : Hashmap CString Nat
  obbPath : CString

def multiuserGetUid (userId appId : Nat) : Nat := u32 (userId * 100000 + appId % 100000)

def android : CString := [65, 110, 100, 114, 111, 105, 100]
def data : CString := [100, 97, 116, 97]
def obb : CString := [111, 98, 98]
def media : CString := [109, 101, 100, 105, 97]

def derivePermissions (global : Global) (parent : Derived) (name : CString) : Derived :=
  let node : Derived := ⟨.inherit, parent.userid, parent.uid, parent.underAndroid, none⟩
  match parent.perm with
  | .inherit => node
  | .preRoot => { node with perm := .root, userid := u32 (strtoul name) }
  | .root =>
    if strcasecmpEqual name android then { node with perm := .android, underAndroid := true } else node
  | .android =>
    if strcasecmpEqual name data then { node with perm := .androidData }
    else if strcasecmpEqual name obb then { node with perm := .androidObb, graftPath := some global.obbPath }
    else if strcasecmpEqual name media then { node with perm := .androidMedia }
    else node
  | .androidData | .androidObb | .androidMedia =>
    let appid := (hashmapGet packageFunctions global.packageToAppid name).getD 0
    if appid ≠ 0 then { node with uid := multiuserGetUid parent.userid appid } else node

def autorunInf : CString := [97, 117, 116, 111, 114, 117, 110, 46, 105, 110, 102]
def dotAndroidSecure : CString := 46 :: androidSecure
where androidSecure : CString := [97, 110, 100, 114, 111, 105, 100, 95, 115, 101, 99, 117, 114, 101]

/-- Only the security-sensitive files at the root are blocked. -/
def checkCallerAccessToName (_uid : Nat) (parent : Option Derived) (name : CString) (_mode : Nat) : Bool :=
  !(parent.any (·.perm = .root) &&
    (strcasecmpEqual name autorunInf || strcasecmpEqual name dotAndroidSecure ||
    strcasecmpEqual name dotAndroidSecure.androidSecure))

/-! ## Letter case -/

theorem isspace_tolower (c : UInt8) : isspace (tolower c) = isspace c := by
  unfold tolower isspace
  grind

theorem isdigit_tolower (c : UInt8) : isdigit (tolower c) = isdigit c := by
  unfold tolower isdigit
  grind

theorem tolower_of_isdigit (h : isdigit c = true) : tolower c = c := by
  unfold tolower isdigit at *
  grind

theorem tolower_eq_iff {sign : UInt8} (hsign : sign = 45 ∨ sign = 43) :
    tolower c = sign ↔ c = sign := by
  unfold tolower
  grind

theorem strtoul_map_tolower (s : CString) : strtoul (s.map tolower) = strtoul s := by
  have hspace : isspace ∘ tolower = isspace := funext isspace_tolower
  have hdigit : isdigit ∘ tolower = isdigit := funext isdigit_tolower
  have hhead : ∀ (l : CString) (sign : UInt8), sign = 45 ∨ sign = 43 →
      ((l.map tolower).head? = some sign ↔ l.head? = some sign) := by
    intro l sign hsign
    cases l with
    | nil => rfl
    | cons c l => simp [tolower_eq_iff hsign]
  have hdigits : ∀ l : CString, (l.map tolower).takeWhile isdigit = l.takeWhile isdigit := by
    intro l
    rw [takeWhile_map, hdigit]
    exact (map_congr_left fun c hc => tolower_of_isdigit (mem_takeWhile_imp hc)).trans (map_id _)
  have htail : ∀ l : CString,
      (if l.head? = some 45 ∨ l.head? = some 43 then (l.map tolower).tail else l.map tolower) =
      (if l.head? = some 45 ∨ l.head? = some 43 then l.tail else l).map tolower := by
    intro l
    split_ifs
    · exact map_tail.symm
    · rfl
  simp only [strtoul, dropWhile_map, hspace, hhead _ 45 (.inl rfl), hhead _ 43 (.inr rfl), htail, hdigits]

theorem strtoul_eq (hab : strcasecmpEqual a b = true) : strtoul a = strtoul b := by
  rw [← strtoul_map_tolower a, beq_iff_eq.1 hab, strtoul_map_tolower]

theorem strcasecmpEqual_eq (hab : strcasecmpEqual a b = true) (c : CString) :
    strcasecmpEqual a c = strcasecmpEqual b c := by
  rw [strcasecmpEqual, beq_iff_eq.1 hab, strcasecmpEqual]

/-! ## What the map finds -/

/-- The equality that the map has. -/
def packageHashing : Hashing CString where
  hash := strHash
  equals a b := hashKey packageFunctions a == hashKey packageFunctions b && strIcaseEquals a b
  equals_refl a := by simp [strIcaseEquals, strcasecmpEqual]
  equals_symm hab := by
    simp only [strIcaseEquals, strcasecmpEqual, Bool.and_eq_true, beq_iff_eq] at hab ⊢
    exact ⟨hab.1.symm, hab.2.symm⟩
  equals_trans hab hbc := by
    simp only [strIcaseEquals, strcasecmpEqual, Bool.and_eq_true, beq_iff_eq] at hab hbc ⊢
    exact ⟨hab.1.trans hbc.1, hab.2.trans hbc.2⟩
  hash_eq hab := by
    simp only [Bool.and_eq_true, beq_iff_eq] at hab
    exact hab.1

/-- `equalKeys` compares the hashes first, and these do not fit `str_icase_equals`. -/
theorem equalKeys_packageFunctions (a b : CString) :
    equalKeys packageFunctions a (hashKey packageFunctions a) b (hashKey packageFunctions b) =
      packageHashing.equals a b := by
  show _ = (hashKey packageFunctions a == hashKey packageFunctions b && strIcaseEquals a b)
  rw [equalKeys]
  split_ifs with hkey hhash
  · simp [hkey, strIcaseEquals, strcasecmpEqual]
  · simp [hhash]
  · rw [not_not.1 hhash, beq_self_eq_true, Bool.true_and]
    rfl

section

variable {map : Hashmap CString Nat} (h : map.Valid packageHashing) (name : CString)
include h

theorem walk_packageFunctions :
    walk packageFunctions name (map.chain (indexOf packageFunctions map name)) =
      walk packageHashing name (map.chain (indexOf packageHashing map name)) := by
  show walk packageFunctions name (map.chain (indexOf packageHashing map name)) = _
  have hplaced := fun e he => (h.placed (indexOf packageHashing map name) e he).1
  generalize map.chain (indexOf packageHashing map name) = chain at hplaced
  simp only [walk, span_eq_takeWhile_dropWhile]
  induction chain with
  | nil => rfl
  | cons e chain ih =>
    have hkey : equalKeys packageFunctions e.key e.hash name (hashKey packageFunctions name) =
        equalKeys packageHashing e.key e.hash name (hashKey packageHashing name) := by
      rw [hplaced e mem_cons_self, equalKeys_eq]
      exact equalKeys_packageFunctions e.key name
    have hrest := Prod.mk.inj (ih fun e he => hplaced e (mem_cons_of_mem _ he))
    simp only [takeWhile_cons, dropWhile_cons, hkey, hrest]

theorem hashmapPut_packageFunctions (value : Option Nat) :
    hashmapPut packageFunctions map name value = hashmapPut packageHashing map name value := by
  simp only [hashmapPut, walk_packageFunctions h name]
  rfl

theorem hashmapGet_packageFunctions :
    hashmapGet packageFunctions map name = hashmapGet packageHashing map name := by
  simp only [hashmapGet, walk_packageFunctions h name]

end

section

variable (packages : List (CString × Int)) (name : CString)

/-- The id of the last package on the list with the name's letters and the name's hash, 0 if there is none. -/
def appidOf : Nat :=
  ((packages.reverse.find? fun p => packageHashing.equals p.1 name).map fun p => u32OfInt p.2).getD 0

theorem getD_appidPointer (appid : Int) : (appidPointer appid).getD 0 = u32OfInt appid := by
  unfold appidPointer
  split_ifs with h
  · rw [h]
    rfl
  · rfl

theorem hashmapGet_readPackageList :
    (hashmapGet packageFunctions (readPackageList packages) name).getD 0 = appidOf packages name := by
  classical
  have hmap : ∃ f : KeyMap packageHashing Nat, Refines packageHashing (readPackageList packages) f ∧
      ∀ name, (f (packageHashing.cls name)).join.getD 0 = appidOf packages name := by
    induction packages using reverseRecOn with
    | nil => exact ⟨_, refines_hashmapCreate _ _, fun _ => rfl⟩
    | append_singleton packages p ih =>
      obtain ⟨f, hf, hget⟩ := ih
      rw [readPackageList, foldl_append]
      change ∃ f, Refines _ (hashmapPut packageFunctions (readPackageList packages) p.1 _).2 f ∧ _
      rw [hashmapPut_packageFunctions hf.valid]
      refine ⟨_, (hf.put p.1 (appidPointer p.2)).2, fun name => ?_⟩
      change (Function.update f _ _ _).join.getD 0 = _
      rw [appidOf, reverse_append, reverse_singleton, singleton_append, find?_cons]
      by_cases hkey : packageHashing.equals p.1 name = true
      · rw [← Hashing.cls_eq.2 hkey, Function.update_self, hkey]
        exact getD_appidPointer p.2
      · rw [Function.update_of_ne (fun heq => hkey (Hashing.cls_eq.1 heq.symm)),
          hget, eq_false_of_ne_true hkey]
        rfl
  obtain ⟨f, hf, hget⟩ := hmap
  rw [hashmapGet_packageFunctions hf.valid, hf.get, hget]

end

/-! ## Two spellings of a name -/

/-- The parents of the directories of packages. -/
def Perm.holdsPackages : Perm → Bool
  | .androidData | .androidObb | .androidMedia => true
  | _ => false

/-- The owner of the directory of an app. -/
def owner (parent : Derived) (appid : Nat) : Nat :=
  if appid ≠ 0 then multiuserGetUid parent.userid appid else parent.uid

section

variable (packages : List (CString × Int)) (obbPath : CString) (parent : Derived)

theorem derivePermissions_package (h : parent.perm.holdsPackages = true) (name : CString) :
    derivePermissions ⟨readPackageList packages, obbPath⟩ parent name =
      ⟨.inherit, parent.userid, owner parent (appidOf packages name), parent.underAndroid, none⟩ := by
  have hget := hashmapGet_readPackageList packages name
  unfold derivePermissions owner
  cases hperm : parent.perm with
  | inherit | preRoot | root | android => simp [hperm, Perm.holdsPackages] at h
  | androidData | androidObb | androidMedia =>
    simp only [hget]
    split_ifs <;> rfl

theorem derivePermissions_other (h : parent.perm.holdsPackages = false) (global : Global)
    (hab : strcasecmpEqual a b = true) :
    derivePermissions global parent a = derivePermissions global parent b := by
  unfold derivePermissions
  cases hperm : parent.perm with
  | androidData | androidObb | androidMedia => simp [hperm, Perm.holdsPackages] at h
  | inherit | preRoot | root | android => simp only [strtoul_eq hab, strcasecmpEqual_eq hab]

theorem checkCallerAccessToName_eq (uid : Nat) (parent : Option Derived)
    (hab : strcasecmpEqual a b = true) (mode : Nat) :
    checkCallerAccessToName uid parent a mode = checkCallerAccessToName uid parent b mode := by
  simp only [checkCallerAccessToName, strcasecmpEqual_eq hab]

/-- Two spellings of a name get the same permissions, except for the owner of the directory of a package: that
is the same exactly if the packages that the two hashes find have the same. -/
theorem permissions_ignore_case_iff {a b : CString} (hab : strcasecmpEqual a b = true) :
    (derivePermissions ⟨readPackageList packages, obbPath⟩ parent a =
        derivePermissions ⟨readPackageList packages, obbPath⟩ parent b ∧
      ∀ uid mode, checkCallerAccessToName uid (some parent) a mode =
        checkCallerAccessToName uid (some parent) b mode) ↔
      (parent.perm.holdsPackages = true →
        owner parent (appidOf packages a) = owner parent (appidOf packages b)) := by
  have hcheck : ∀ uid mode, checkCallerAccessToName uid (some parent) a mode =
      checkCallerAccessToName uid (some parent) b mode :=
    fun uid mode => checkCallerAccessToName_eq uid _ hab mode
  rw [and_iff_left hcheck]
  cases hperm : parent.perm.holdsPackages with
  | false =>
    exact iff_of_true (derivePermissions_other parent hperm _ hab)
      (fun h => absurd h Bool.false_ne_true)
  | true =>
    rw [derivePermissions_package _ _ _ hperm, derivePermissions_package _ _ _ hperm]
    simp

end

/-- `Android` and `ANDROID` at the root. -/
theorem permissions_ignore_case_root :
    derivePermissions ⟨readPackageList [], []⟩ ⟨.root, 0, 0, false, none⟩ android =
      derivePermissions ⟨readPackageList [], []⟩ ⟨.root, 0, 0, false, none⟩ (android.map (· ^^^ 32)) :=
  ((permissions_ignore_case_iff [] [] ⟨.root, 0, 0, false, none⟩
    (by decide)).2 (by decide)).1

/-- The package `a` has the directory `a` of `Android/data`, and `A` is nobody's. -/
theorem package_spelled_otherwise :
    ¬(∀ a b, strcasecmpEqual a b = true →
      derivePermissions ⟨readPackageList [([97], 10001)], []⟩ ⟨.androidData, 0, 1023, true, none⟩ a =
        derivePermissions ⟨readPackageList [([97], 10001)], []⟩ ⟨.androidData, 0, 1023, true, none⟩ b) := by
  intro h
  have heq := h [97] [65] (by decide)
  rw [derivePermissions_package _ _ _ rfl, derivePermissions_package _ _ _ rfl] at heq
  exact absurd heq (by decide)

end AndroidSystem.Sdcard
