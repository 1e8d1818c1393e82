import Stacking.Command.Arguments

/-!
# Addresses of files

Files that are given on a command line and have one address are one file. Percent-encoding can be
undone (`Path.bytesOf_percentName`), encoded names hold no slash, and no name on the way to a file is
empty (`FileOperand.path_eq_of_uri_eq`).
-/

namespace Stacking

/-! ## Percent-encoding -/

/-- The bytes of a byte array, collected from an index on. -/
theorem ByteArray.toList_loop (bytes : ByteArray) (i : Nat) (front : List UInt8) :
    ByteArray.toList.loop bytes i front = front.reverse ++ bytes.data.toList.drop i := by
  rw [ByteArray.toList.loop]
  split
  · rename_i hi
    have hget : bytes.get! i = bytes.data.toList[i] := by
      show bytes.data[i]! = _
      rw [getElem!_pos bytes.data i hi, Array.getElem_toList]
    rw [ByteArray.toList_loop bytes (i + 1), hget, List.reverse_cons, List.append_assoc,
      List.singleton_append, List.getElem_cons_drop]
  · rename_i hi
    have hle : bytes.data.toList.length ≤ i := Nat.not_lt.mp hi
    rw [List.drop_of_length_le hle, List.append_nil]
termination_by bytes.size - i

namespace Path

/-- The bytes of a character in UTF-8. -/
def charBytes (c : Char) : List UInt8 := (String.singleton c).toUTF8.toList

/-- The value of a digit of a percent-encoded byte. -/
def digitValue (c : Char) : Nat := if c.isDigit then c.toNat - 48 else c.toNat - 55

/-- The bytes that are spelled by a percent-encoded text. -/
def bytesOf : List Char → List UInt8
  | '%' :: high :: low :: rest =>
    UInt8.ofNat (digitValue high * 16 + digitValue low) :: bytesOf rest
  | c :: rest => charBytes c ++ bytesOf rest
  | [] => []

theorem digitValue_digit : ∀ n < 16, digitValue (Char.toUpper (Nat.digitChar n)) = n := by decide

theorem bytesOf_percentByte (b : UInt8) (rest : List Char) :
    bytesOf ((percentByte b).toList ++ rest) = b :: bytesOf rest := by
  have hlt := b.toNat_lt
  have hbyte : UInt8.ofNat (b.toNat / 16 * 16 + b.toNat % 16) = b := by
    rw [Nat.div_add_mod', UInt8.ofNat_toNat]
  rw [percentByte, String.toList_ofList]
  show bytesOf ('%' :: _ :: _ :: rest) = _
  rw [bytesOf, digitValue_digit _ (by omega), digitValue_digit _ (by omega), hbyte]

theorem bytesOf_percentBytes (bytes : List UInt8) (rest : List Char) :
    bytesOf ((String.join (bytes.map percentByte)).toList ++ rest) = bytes ++ bytesOf rest := by
  induction bytes with
  | nil => rfl
  | cons b bytes ih =>
    rw [List.map_cons, String.join_cons, String.toList_append, List.append_assoc,
      bytesOf_percentByte, ih]
    rfl

/-- Percent-encoding spells the bytes of a name. -/
theorem bytesOf_percentName (name : String) :
    bytesOf (percentName name).toList = name.toList.flatMap charBytes := by
  rw [percentName]
  induction name.toList with
  | nil => rfl
  | cons c cs ih =>
    rw [List.map_cons, String.join_cons, String.toList_append, List.flatMap_cons, ← ih]
    split
    · rename_i hplain
      have hne : c ≠ '%' := by
        rintro rfl
        exact absurd hplain (by decide)
      rw [String.toList_singleton, List.singleton_append, bytesOf]
      rintro _ _ _ rfl
      exact absurd rfl hne
    · exact bytesOf_percentBytes _ _

theorem charBytes_eq (c : Char) : charBytes c = String.utf8EncodeChar c := by
  show ByteArray.toList.loop (String.singleton c).toByteArray 0 [] = _
  rw [ByteArray.toList_loop, String.toByteArray_singleton, List.utf8Encode_singleton,
    List.toList_data_toByteArray]
  rfl

/-- Different names are encoded differently. -/
theorem percentName_injective {name name' : String} (h : percentName name = percentName name') :
    name = name' := by
  have hbytes := congrArg (fun s => bytesOf s.toList) h
  simp only [bytesOf_percentName] at hbytes
  have hencode : ∀ s : String,
      s.toByteArray = (s.toList.flatMap String.utf8EncodeChar).toByteArray := fun s =>
    String.utf8Encode_toList.symm
  apply String.toByteArray_inj.mp
  rw [hencode, hencode, ← funext charBytes_eq, hbytes]

/-- An encoded name holds no slash. -/
theorem not_mem_percentName (name : String) : '/' ∉ (percentName name).toList := by
  rw [percentName, String.toList_join, List.mem_flatMap]
  rintro ⟨s, hs, hslash⟩
  obtain ⟨c, -, rfl⟩ := List.mem_map.mp hs
  split at hslash
  · rename_i hplain
    rw [String.toList_singleton, List.mem_singleton] at hslash
    rw [← hslash] at hplain
    exact absurd hplain (by decide)
  · rw [String.toList_join, List.mem_flatMap] at hslash
    obtain ⟨s, hs, hslash⟩ := hslash
    obtain ⟨b, -, rfl⟩ := List.mem_map.mp hs
    have hdigit : ∀ n < 16, Char.toUpper (Nat.digitChar n) ≠ '/' := by decide
    have hlt := b.toNat_lt
    rw [percentByte, String.toList_ofList] at hslash
    simp only [List.mem_cons, List.not_mem_nil, or_false] at hslash
    rcases hslash with hslash | hslash | hslash
    · exact absurd hslash (by decide)
    · exact hdigit _ (by omega) hslash.symm
    · exact hdigit _ (by omega) hslash.symm

/-! ## Addresses -/

/-- The names of a path can be told from its address, but for the path without names. -/
theorem splitOn_uri {p : Path} (h : p ≠ []) :
    List.splitOn '/' ("/".intercalate (p.map percentName)).toList =
      p.map fun name => (percentName name).toList := by
  rw [String.toList_intercalate, List.map_map]
  refine List.splitOn_intercalate '/' (fun l hl => ?_) (by simpa using h)
  obtain ⟨name, -, rfl⟩ := List.mem_map.mp hl
  exact not_mem_percentName name

/-- A path with names that are not empty does not have the address of the path without names. -/
theorem intercalate_ne_empty {p : Path} (h : p ≠ []) (hnames : "" ∉ p) :
    "/".intercalate (p.map percentName) ≠ "" := by
  intro hempty
  have hsplit := splitOn_uri h
  rw [hempty] at hsplit
  obtain ⟨name, rest, rfl⟩ := List.exists_cons_of_ne_nil h
  obtain ⟨hname, -⟩ := List.cons.inj hsplit
  have hnil : percentName name = percentName "" := String.toList_inj.mp hname.symm
  exact hnames (percentName_injective hnil ▸ List.mem_cons_self)

/-- Paths of names that are not empty have different addresses. -/
theorem uri_injective {p q : Path} (hp : "" ∉ p) (hq : "" ∉ q) (h : p.uri = q.uri) : p = q := by
  have h : "/".intercalate (p.map percentName) = "/".intercalate (q.map percentName) := by
    have hlist := congrArg String.toList h
    rw [uri, uri, String.toList_append, String.toList_append] at hlist
    exact String.toList_inj.mp (List.append_cancel_left hlist)
  by_cases hpnil : p = []
  · by_cases hqnil : q = []
    · rw [hpnil, hqnil]
    · rw [hpnil] at h
      exact absurd h.symm (intercalate_ne_empty hqnil hq)
  · by_cases hqnil : q = []
    · rw [hqnil] at h
      exact absurd h (intercalate_ne_empty hpnil hp)
    · have hsplit := splitOn_uri hpnil
      rw [h, splitOn_uri hqnil] at hsplit
      refine (List.map_inj_right fun name name' heq => ?_).mp hsplit.symm
      exact percentName_injective (String.toList_inj.mp heq)

end Path

/-! ## Files on a command line -/

namespace FileTree

/-- No name on a way that is followed is empty. -/
theorem not_mem_of_follow {t : FileTree} {p q : Path} {names : List String} (hp : "" ∉ p)
    (h : t.follow p names = some q) : "" ∉ q := by
  induction names generalizing p with
  | nil => exact Option.some.inj h ▸ hp
  | cons name rest ih =>
    rw [follow] at h
    split at h
    · exact nomatch h
    · split at h
      · exact ih hp h
      · rename_i hname
        split at h
        · exact ih (fun hmem => hp (List.dropLast_subset p hmem)) h
        · refine ih (fun hmem => ?_) h
          rcases List.mem_append.mp hmem with hmem | hmem
          · exact hp hmem
          · rw [List.mem_singleton] at hmem
            exact hname (by simp [← hmem])

end FileTree

namespace FileOperand

/-- No name on the way to a file is empty. -/
theorem not_mem_of_read {tree : FileTree} {parameter written : String} {o : FileOperand}
    (hbase : "" ∉ tree.base) (h : read tree parameter written = .ok o) : "" ∉ o.path := by
  unfold read at h
  split at h
  · cases h
  · cases hfind : tree.find written with
    | file path entry =>
      rw [hfind] at h
      obtain rfl := Except.ok.inj h
      unfold FileTree.find at hfind
      cases hresolve : tree.resolve? written with
      | none =>
        rw [hresolve] at hfind
        cases hfind
      | some p =>
        rw [hresolve] at hfind
        simp only at hfind
        split at hfind
        · injection hfind with hpath _
          subst hpath
          unfold FileTree.resolve? at hresolve
          split at hresolve
          · cases hresolve
          · refine FileTree.not_mem_of_follow ?_ hresolve
            split
            · exact List.not_mem_nil
            · exact hbase
        · split at hfind <;> cases hfind
    | directory =>
      rw [hfind] at h
      cases h
    | nothing =>
      rw [hfind] at h
      cases h

/-- No name on the way to a file on a command line is empty. -/
theorem not_mem_of_readAll {tree : FileTree} {words : List String} {files : List FileOperand}
    (hbase : "" ∉ tree.base) (h : readAll tree words = .ok files) :
    ∀ o ∈ files, "" ∉ o.path := by
  unfold readAll at h
  split at h
  · exact nomatch h
  · rename_i hsome
    clear hsome
    induction words generalizing files with
    | nil =>
      rw [List.mapM_nil] at h
      obtain rfl := Except.ok.inj h
      exact nofun
    | cons word rest ih =>
      rw [List.mapM_cons] at h
      cases hread : read tree "FILES..." word with
      | error e =>
        rw [hread] at h
        exact nomatch h
      | ok o =>
        rw [hread] at h
        cases hrest : rest.mapM (read tree "FILES...") with
        | error e =>
          rw [hrest] at h
          exact nomatch h
        | ok others =>
          rw [hrest] at h
          obtain rfl := Except.ok.inj h
          exact List.forall_mem_cons.mpr ⟨not_mem_of_read hbase hread, ih hrest⟩

/-- Files on a command line that have one address are one file. -/
theorem path_eq_of_uri_eq {tree : FileTree} {words : List String} {files : List FileOperand}
    (hbase : "" ∉ tree.base) (h : readAll tree words = .ok files) {o o' : FileOperand}
    (ho : o ∈ files) (ho' : o' ∈ files) (huri : o.uri = o'.uri) : o.path = o'.path :=
  Path.uri_injective (not_mem_of_readAll hbase h o ho) (not_mem_of_readAll hbase h o' ho') huri

end FileOperand
end Stacking
