import EmuleQt.Client.CreditsRuns
import EmuleQt.Framework.Keyed
import EmuleQt.Utils.Opcodes

namespace EmuleQt.Client

open Crypto Framework Math Utils

namespace CreditStruct

/-- `sizeof` of the packed record. -/
def size : Nat := 119

/-- `sizeof(CreditStruct_29a)`, the record of the older version, which ends before the key. -/
def size29a : Nat := 38

/-- The packed bytes of a record. -/
def image (c : CreditStruct) : List UInt8 :=
  c.key.bytes ++ (leBytes 4 c.uploadedLo.toNat ++ (leBytes 4 c.downloadedLo.toNat ++
    (leBytes 4 c.lastSeen.toNat ++ (leBytes 4 c.uploadedHi.toNat ++
      (leBytes 4 c.downloadedHi.toNat ++ (leBytes 2 c.reserved.toNat ++
        (leBytes 1 c.keySize.toNat ++ c.secureIdent.bytes)))))))

/-- The bytes of a record read over a zeroed one. -/
def ofImage (bs : List UInt8) : CreditStruct where
  key := .zeroPadded 16 bs
  uploadedLo := .ofNat (leValue ((bs.drop 16).take 4))
  downloadedLo := .ofNat (leValue ((bs.drop 20).take 4))
  lastSeen := .ofNat (leValue ((bs.drop 24).take 4))
  uploadedHi := .ofNat (leValue ((bs.drop 28).take 4))
  downloadedHi := .ofNat (leValue ((bs.drop 32).take 4))
  reserved := .ofNat (leValue ((bs.drop 36).take 2))
  keySize := .ofNat (leValue ((bs.drop 38).take 1))
  secureIdent := .zeroPadded kMaxPubKeySize (bs.drop 39)

theorem image_length (c : CreditStruct) : c.image.length=size := by
  simp [image,c.key.size,c.secureIdent.size,size,kMaxPubKeySize]

variable {img field rest : List UInt8} {pos w v : Nat}

theorem drop_next (h : img.drop pos=field++rest) (hw : field.length=w) :
    img.drop (pos+w)=rest := by
  rw [← List.drop_drop,h]
  exact List.drop_left' hw

theorem value_at (h : img.drop pos=leBytes w v++rest) (hv : v<256^w) :
    leValue ((img.drop pos).take w)=v := by
  rw [h,List.take_left' (leBytes_length w v)]
  exact leValue_leBytes hv

theorem ofImage_image (c : CreditStruct) : ofImage c.image=c := by
  have h16 : c.image.drop 16=leBytes 4 c.uploadedLo.toNat++_ := List.drop_left' c.key.size
  have h20 : c.image.drop 20=leBytes 4 c.downloadedLo.toNat++_ :=
    drop_next h16 (leBytes_length 4 _)
  have h24 : c.image.drop 24=leBytes 4 c.lastSeen.toNat++_ := drop_next h20 (leBytes_length 4 _)
  have h28 : c.image.drop 28=leBytes 4 c.uploadedHi.toNat++_ :=
    drop_next h24 (leBytes_length 4 _)
  have h32 : c.image.drop 32=leBytes 4 c.downloadedHi.toNat++_ :=
    drop_next h28 (leBytes_length 4 _)
  have h36 : c.image.drop 36=leBytes 2 c.reserved.toNat++_ := drop_next h32 (leBytes_length 4 _)
  have h38 : c.image.drop 38=leBytes 1 c.keySize.toNat++_ := drop_next h36 (leBytes_length 2 _)
  have h39 : c.image.drop 39=c.secureIdent.bytes++[] := by
    rw [List.append_nil]
    exact drop_next h38 (leBytes_length 1 _)
  have hkey : Digest.zeroPadded 16 c.image=c.key := Digest.zeroPadded_append c.key _
  have hident : Digest.zeroPadded kMaxPubKeySize (c.image.drop 39)=c.secureIdent := by
    rw [h39]
    exact Digest.zeroPadded_append c.secureIdent []
  unfold ofImage
  rw [hkey,hident,value_at h16 (UInt32.toNat_lt _),value_at h20 (UInt32.toNat_lt _),
    value_at h24 (UInt32.toNat_lt _),value_at h28 (UInt32.toNat_lt _),
    value_at h32 (UInt32.toNat_lt _),value_at h36 (UInt16.toNat_lt _),
    value_at h38 (UInt8.toNat_lt _)]
  simp

end CreditStruct

namespace ClientCredits

/-- The key of the map of the credits. -/
def key (c : ClientCredits) : MD4Hash := c.credits.key

def hasTransfers (c : ClientCredits) : Bool :=
  decide (c.credits.uploadedTotal≠0 ∨ c.credits.downloadedTotal≠0)

end ClientCredits

namespace ClientCreditsList

open ClientCredits CreditStruct

/-- The oldest time a record is kept for, cut to 32 bits. -/
def expired (now : Int) : UInt32 := .ofNat ((now - DAY2S 150) % 2 ^ 32).toNat

def recordSize (version : Nat) : Nat :=
  if version = CREDITFILE_VERSION_29 then size29a else CreditStruct.size

/-- The loop over the records: whether it came to its end, and the credits by then; none if a key
was copied past an array. -/
def loadRecords (readSize : Nat) (expired : UInt32) :
    Nat → List UInt8 → List ClientCredits → Option (Bool × List ClientCredits)
  | 0, _, clients => some (true, clients)
  | count+1, file, clients =>
    match Reader.read readSize file with
    | .error _ => some (false, clients)
    | .ok (bs, file) =>
      if (ofImage bs).lastSeen<expired then loadRecords readSize expired count file clients
      else
        (ofStruct (ofImage bs)).bind fun credits =>
          loadRecords readSize expired count file
            (upsert key credits.key (fun _ => credits) clients)

def loadList (now : Int) (file : List UInt8) (clients : List ClientCredits) :
    Option (Bool × List ClientCredits) :=
  match Reader.readUInt8 file with
  | .error _ => some (false, clients)
  | .ok (version, file) =>
    if version ≠ CREDITFILE_VERSION ∧ version ≠ CREDITFILE_VERSION_29 then some (false, clients)
    else
      match Reader.readUInt32 file with
      | .error _ => some (false, clients)
      | .ok (count, file) => loadRecords (recordSize version) (expired now) count file clients

def saveList (clients : List ClientCredits) : List UInt8 :=
  let saved := clients.filter hasTransfers
  writeUInt8 CREDITFILE_VERSION ++ (writeUInt32 saved.length ++
    (saved.map fun c => c.credits.image).flatten)

/-! # The records of a file -/

/-- The records a file has whole, at most `count` of them. -/
def wholeRecords (readSize : Nat) : Nat → List UInt8 → List CreditStruct
  | 0, _ => []
  | count+1, file =>
    if readSize≤file.length then
      ofImage (file.take readSize)::wholeRecords readSize count (file.drop readSize)
    else []

/-- The records behind a known version and their number. -/
def fileRecords (file : List UInt8) : List CreditStruct :=
  match Reader.readUInt8 file with
  | .error _ => []
  | .ok (version, file) =>
    if version≠CREDITFILE_VERSION ∧ version≠CREDITFILE_VERSION_29 then []
    else
      match Reader.readUInt32 file with
      | .error _ => []
      | .ok (count, file) => wholeRecords (recordSize version) count file

variable {readSize count : Nat} {exp : UInt32} {file : List UInt8} {clients : List ClientCredits}

theorem loadRecords_isSome : (∃ r, loadRecords readSize exp count file clients=some r) ↔
    ∀ cs∈wholeRecords readSize count file, ¬ cs.lastSeen<exp → cs.KeyFits := by
  induction count generalizing file clients with
  | zero => simp [loadRecords,wholeRecords]
  | succ count ih =>
    unfold loadRecords wholeRecords Reader.read
    by_cases hwhole : readSize≤file.length
    · rw [if_pos hwhole,if_pos hwhole,List.forall_mem_cons]
      dsimp only
      split_ifs with hold
      · rw [ih]
        exact ⟨fun h => ⟨fun hnew => absurd hold hnew,h⟩,fun h => h.2⟩
      · by_cases hfits : (ofImage (file.take readSize)).KeyFits
        · obtain ⟨c,hc,-⟩ := ofStruct_spec hfits
          rw [hc,Option.bind_some,ih]
          exact ⟨fun h => ⟨fun _ => hfits,h⟩,fun h => h.2⟩
        · rw [ofStruct_eq_none hfits,Option.bind_none]
          constructor
          · rintro ⟨r,hr⟩
            exact absurd hr (Option.some_ne_none r).symm
          · intro h
            exact absurd (h.1 hold) hfits
    · rw [if_neg hwhole,if_neg hwhole]
      simp

theorem ofStruct_fits {cs : CreditStruct} {c : ClientCredits} (h : ofStruct cs=some c) :
    c.Fits := by
  have hfits := ofStruct_isSome.mp ⟨c,h⟩
  obtain ⟨c₁,hc₁,hcredits,hlen,-⟩ := ofStruct_spec hfits
  obtain rfl := Option.some.inj (h.symm.trans hc₁)
  exact ⟨hcredits ▸ hfits,hlen ▸ hfits⟩

theorem loadRecords_fits {ok : Bool} {loaded : List ClientCredits} (h : ∀ c∈clients,c.Fits)
    (hload : loadRecords readSize exp count file clients=some (ok, loaded)) :
    ∀ c∈loaded,c.Fits := by
  induction count generalizing file clients with
  | zero =>
    obtain ⟨-,rfl⟩ := Prod.mk.inj (Option.some.inj hload)
    exact h
  | succ count ih =>
    unfold loadRecords at hload
    split at hload
    · obtain ⟨-,rfl⟩ := Prod.mk.inj (Option.some.inj hload)
      exact h
    · split_ifs at hload
      · exact ih h hload
      · obtain ⟨c,hc,hrest⟩ := Option.bind_eq_some_iff.mp hload
        apply ih _ hrest
        intro d hd
        rcases mem_upsert hd with rfl | hold
        · exact ofStruct_fits hc
        · exact h d hold

theorem loadList_isSome {now : Int} : (∃ r, loadList now file clients=some r) ↔
    ∀ cs∈fileRecords file,¬ cs.lastSeen<expired now → cs.KeyFits := by
  unfold loadList fileRecords
  cases Reader.readUInt8 file with
  | error e => simp
  | ok r =>
    dsimp only
    split_ifs with hversion
    · simp
    · cases Reader.readUInt32 r.2 with
      | error e => simp
      | ok r => exact loadRecords_isSome

theorem loadList_fits {now : Int} {ok : Bool} {loaded : List ClientCredits}
    (h : ∀ c∈clients,c.Fits) (hload : loadList now file clients=some (ok, loaded)) :
    ∀ c∈loaded,c.Fits := by
  unfold loadList at hload
  cases hversion : Reader.readUInt8 file with
  | error e =>
    rw [hversion] at hload
    obtain ⟨-,rfl⟩ := Prod.mk.inj (Option.some.inj hload)
    exact h
  | ok r =>
    rw [hversion] at hload
    dsimp only at hload
    split_ifs at hload
    · obtain ⟨-,rfl⟩ := Prod.mk.inj (Option.some.inj hload)
      exact h
    · cases hcount : Reader.readUInt32 r.2 with
      | error e =>
        rw [hcount] at hload
        obtain ⟨-,rfl⟩ := Prod.mk.inj (Option.some.inj hload)
        exact h
      | ok r =>
        rw [hcount] at hload
        exact loadRecords_fits h hload

/-! # What is saved comes back -/

theorem read_image (c : CreditStruct) (rest : List UInt8) :
    Reader.read size (c.image++rest) = .ok (c.image, rest) :=
  Reader.read_append (image_length c) rest

theorem loadRecords_images {records : List CreditStruct} (hcount : count≤records.length)
    (hfits : ∀ cs∈records,cs.KeyFits)
    (hkeys : (clients.map ClientCredits.key++records.map CreditStruct.key).Nodup) :
    ∃ loaded, loadRecords size exp count (records.map image).flatten clients =
        some (true, clients++loaded) ∧
      loaded.map credits=(records.take count).filter fun cs => decide (¬ cs.lastSeen<exp) := by
  induction count generalizing records clients with
  | zero => exact ⟨[],by rw [List.append_nil]; rfl,rfl⟩
  | succ count ih =>
    cases records with
    | nil => exact absurd hcount (Nat.not_succ_le_zero count)
    | cons cs records =>
      have hcount' := Nat.le_of_succ_le_succ hcount
      have hfits' := fun cs' h => hfits cs' (List.mem_cons_of_mem cs h)
      rw [List.map_cons,List.flatten_cons,List.take_succ_cons,loadRecords,read_image]
      dsimp only
      rw [ofImage_image]
      split_ifs with hold
      · rw [List.filter_cons_of_neg (by simp [hold])]
        apply ih hcount' hfits'
        exact hkeys.sublist (List.Sublist.append_left (List.sublist_cons_self _ _) _)
      · rw [List.filter_cons_of_pos (by simp [hold])]
        obtain ⟨c,hc,hcredits,-⟩ := ofStruct_spec (hfits cs List.mem_cons_self)
        have hkey : c.key=cs.key := congrArg CreditStruct.key hcredits
        have hperm : ((clients++[c]).map ClientCredits.key++records.map CreditStruct.key).Nodup := by
          rw [List.map_append,List.map_singleton,hkey,List.append_assoc]
          exact hkeys
        have hnew : c.key∉clients.map ClientCredits.key := by
          intro hmem
          rw [hkey] at hmem
          exact (List.nodup_append.mp hkeys).2.2 _ hmem _ List.mem_cons_self rfl
        obtain ⟨loaded,hload,hloaded⟩ := ih hcount' hfits' hperm
        refine ⟨c::loaded,?_,by rw [List.map_cons,hcredits,hloaded]⟩
        rw [hc,Option.bind_some,upsert_of_not_mem hnew,hload,List.append_assoc]
        rfl

/-- Loading what was saved gives the records with transfers that are not too old, as many as the
32-bit number of them says. -/
theorem loadList_saveList (now : Int) (hfits : ∀ c∈clients,c.credits.KeyFits)
    (hkeys : (clients.map ClientCredits.key).Nodup) :
    ∃ loaded, loadList now (saveList clients) []=some (true, loaded) ∧
      loaded.map credits =
        (((clients.filter hasTransfers).map credits).take
          ((clients.filter hasTransfers).length%2^32)).filter
          fun cs => decide (¬ cs.lastSeen<expired now) := by
  have hversion : Reader.readUInt8 (saveList clients) = .ok (CREDITFILE_VERSION, _) :=
    readUInt8_write (by decide) _
  have hcount : Reader.readUInt32 (writeUInt32 (clients.filter hasTransfers).length ++
      ((clients.filter hasTransfers).map fun c => c.credits.image).flatten) =
      .ok ((clients.filter hasTransfers).length%2^32, _) :=
    Reader.readUInt_leBytes_mod 4 _ _
  have hsaved : ((clients.filter hasTransfers).map credits).map CreditStruct.key =
      (clients.filter hasTransfers).map ClientCredits.key := List.map_map
  have himages : ((clients.filter hasTransfers).map fun c => c.credits.image) =
      ((clients.filter hasTransfers).map credits).map image := by
    rw [List.map_map]
    rfl
  unfold loadList
  rw [hversion]
  dsimp only
  rw [if_neg (by decide),hcount,himages]
  apply loadRecords_images
  · rw [List.length_map]
    exact Nat.mod_le _ _
  · intro cs hcs
    obtain ⟨c,hc,rfl⟩ := List.mem_map.mp hcs
    exact hfits c (List.mem_of_mem_filter hc)
  · rw [hsaved]
    exact hkeys.sublist (List.filter_sublist.map _)

theorem not_expired {now : Int} {lastSeen : UInt32} (hclock : (DAY2S 150 : Int)≤now)
    (hseen : now-DAY2S 150≤lastSeen.toNat) : ¬ lastSeen<expired now := by
  have hlt : lastSeen.toNat<2^32 := lastSeen.toNat_lt
  have hcut : (now-DAY2S 150)%2^32=now-DAY2S 150 := Int.emod_eq_of_lt (by omega) (by omega)
  rw [UInt32.lt_iff_toNat_lt,expired,hcut,UInt32.toNat_ofNat']
  omega

/-- A credit file is read inside the arrays of its records, and whatever is then called on the
credits stays inside them, exactly when no record that is taken has a key size above the array.
What is saved comes back: the records with transfers that are not too old, as many as their 32-bit
number says. -/
theorem clientsMet_kept (ssl : OpenSSL) (own : OwnKey) (cryptoAvailable : Bool) (now : Int)
    (file : List UInt8) (clients : List ClientCredits) (hclients : ∀ c ∈ clients, c.Fits) :
    ((∃ ok loaded, loadList now file clients = some (ok, loaded) ∧
        ∀ c ∈ loaded, c.Fits ∧ ∀ calls, ∃ c',
          runChecked (step ssl own cryptoAvailable) c calls = some c' ∧ c'.Fits) ↔
      ∀ cs ∈ fileRecords file, ¬ cs.lastSeen < expired now → cs.KeyFits) ∧
    ∀ list : List ClientCredits, (list.map ClientCredits.key).Nodup →
      (∀ c ∈ list, c.credits.KeyFits) →
      ∃ loaded, loadList now (saveList list) [] = some (true, loaded) ∧
        (loaded.map credits = (((list.filter hasTransfers).map credits).take
          ((list.filter hasTransfers).length % 2 ^ 32)).filter
            fun cs => decide (¬ cs.lastSeen < expired now)) ∧
        ((list.filter hasTransfers).length < 2 ^ 32 → (DAY2S 150 : Int) ≤ now →
          ∀ c ∈ list, c.hasTransfers = true → now - DAY2S 150 ≤ c.credits.lastSeen.toNat →
            ∃ d ∈ loaded, d.credits = c.credits) := by
  constructor
  · rw [← loadList_isSome]
    constructor
    · rintro ⟨ok,loaded,hload,-⟩
      exact ⟨_,hload⟩
    · rintro ⟨⟨ok,loaded⟩,hload⟩
      refine ⟨ok,loaded,hload,fun c hc => ?_⟩
      have hfits := loadList_fits hclients hload c hc
      exact ⟨hfits,fun calls => runs_fit hfits calls⟩
  · intro list hkeys hfits
    obtain ⟨loaded,hload,hloaded⟩ := loadList_saveList now hfits hkeys
    refine ⟨loaded,hload,hloaded,?_⟩
    intro hfew hclock c hc htransfers hseen
    have hsaved : c.credits∈(list.filter hasTransfers).map credits :=
      List.mem_map_of_mem (List.mem_filter.mpr ⟨hc,htransfers⟩)
    have hall : ((list.filter hasTransfers).map credits).take
        ((list.filter hasTransfers).length%2^32)=(list.filter hasTransfers).map credits := by
      rw [Nat.mod_eq_of_lt hfew]
      exact List.take_of_length_le (List.length_map _).le
    rw [hall] at hloaded
    apply List.mem_map.mp
    rw [hloaded]
    exact List.mem_filter.mpr ⟨hsaved,decide_eq_true (not_expired hclock hseen)⟩

/-- One record of 0xFF bytes, its key size among them. -/
theorem clientsMet_oversized : ¬ ∀ (now : Int) (file : List UInt8),
    ∃ r, loadList now file [] = some r := by
  intro h
  obtain ⟨r,hr⟩ := h 1700000000 ([0x12,1,0,0,0]++List.replicate 119 0xFF)
  have hnone : (loadList 1700000000 ([0x12,1,0,0,0]++List.replicate 119 0xFF) []).isNone =
      true := by decide +kernel
  rw [hr] at hnone
  exact Bool.false_ne_true hnone

/-- A peer seen the same day, with a key of two bytes. -/
theorem clientsMet_kept_one : ∃ loaded,
    loadList 1700000000 (saveList [⟨⟨.zero _, 5, 7, 1700000000, 0, 1, 0, 2, .zero _⟩, .IdNeeded,
      .none, .zero _, 2, 0, 0⟩]) [] = some (true, loaded) ∧
    ∃ d ∈ loaded, d.credits = ⟨.zero _, 5, 7, 1700000000, 0, 1, 0, 2, .zero _⟩ := by
  obtain ⟨loaded,hload,-,hback⟩ := (clientsMet_kept
    ⟨Unit,fun _ => none,fun _ _ _ => false,fun _ => none⟩ ⟨[],Nat.zero_le _⟩ true 1700000000 []
    [] (List.forall_mem_nil _)).2
    [⟨⟨.zero _,5,7,1700000000,0,1,0,2,.zero _⟩,.IdNeeded,.none,.zero _,2,0,0⟩]
    (by decide) (List.forall_mem_singleton.mpr (by decide))
  exact ⟨loaded,hload,hback (by decide) (by decide) _ List.mem_cons_self (by decide) (by decide)⟩

end ClientCreditsList

end EmuleQt.Client
