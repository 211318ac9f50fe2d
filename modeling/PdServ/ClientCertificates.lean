import PdServ.Config
import PdServ.HexValue

/-!
Which clients a server with TLS lets in: `Main::parseCertConfigItem`, `parseCertConfigDir`
and `loadCrlFile`, which make the blacklist from the names of empty files, the hexadecimal
texts of `datum_string`, and `Session::gnutls_verify_client`. The files and what gnutls
returns are given.
-/

namespace PdServ
namespace Certificates

/-! ### Key ids as text -/

def hexchar (c : Byte) : Byte :=
  if 65 ≤ c ∧ c ≤ 70 then c - 55
  else if 97 ≤ c ∧ c ≤ 102 then c - 87
  else if isdigit c then c - 48
  else 0

/-- `datum_string(hexdata)`: a character that is left over counts for nothing. -/
def datumString : List Byte → List Byte
  | high :: low :: rest => ((hexchar high <<< 4) + hexchar low) :: datumString rest
  | _ => []

/-- The digits of a byte in `operator std::string`. -/
def datumDigits (byte : Byte) : List Byte :=
  let table := ascii "0123456789abcdef"
  [table.getD ((byte >>> 4) &&& 15).toNat 0, table.getD (byte &&& 15).toNat 0]

/-- `datum_string::operator std::string` -/
def datumText (datum : List Byte) : List Byte := datum.flatMap datumDigits

set_option maxRecDepth 20000 in
theorem hexchar_tolower (c : Byte) : hexchar (tolower c) = hexchar c := by
  revert c
  exact Parameter.forall_byte (by decide)

set_option maxRecDepth 20000 in
theorem datumString_digits (byte : Byte) : datumString (datumDigits byte) = [byte] := by
  revert byte
  exact Parameter.forall_byte (by decide)

/-- Capital letters make no difference. -/
theorem datumString_tolower : ∀ text : List Byte,
    datumString (text.map tolower) = datumString text
  | high :: low :: rest => by
      rw [List.map_cons, List.map_cons, datumString, datumString, hexchar_tolower,
        hexchar_tolower, datumString_tolower rest]
  | [_] | [] => rfl

theorem datumString_datumText (datum : List Byte) : datumString (datumText datum) = datum := by
  induction datum with
  | nil => rfl
  | cons byte rest ih =>
      have here := datumString_digits byte
      have split (high low : Byte) (rest : List Byte) :
          datumString (high :: low :: rest) = datumString [high, low] ++ datumString rest := rfl
      have text : datumText (byte :: rest) = datumDigits byte ++ datumText rest := rfl
      rw [text, datumDigits, List.cons_append, List.cons_append, List.nil_append, split, ih]
      exact congrArg (· ++ rest) here

/-! ### The files -/

mutual
/-- What a path leads to: a directory that can be opened, or what `stat()` says of it. -/
inductive FileTree where
  | missing
  | file (regular : Bool) (size : Nat)
  | directory (entries : DirEntries)

inductive DirEntries where
  | nil
  | cons (name : List Byte) (tree : FileTree) (rest : DirEntries)
end

abbrev dot : Byte := 46

mutual
/-- `parseCertConfigDir`: the paths that it loads, in their order. -/
def parseCertConfigDir (path : List Byte) : FileTree → List (List Byte × FileTree)
  | .missing => [(path, .missing)]
  | .file regular size => [(path, .file regular size)]
  | .directory entries => parseEntries path entries

def parseEntries (path : List Byte) : DirEntries → List (List Byte × FileTree)
  | .nil => []
  | .cons name tree rest =>
      (if name.head? = some dot then []
        else parseCertConfigDir (path ++ Chr.slash :: name) tree) ++ parseEntries path rest
end

/-- `::basename`: what is behind the last slash. -/
def basename (path : List Byte) : List Byte :=
  (path.reverse.takeWhile fun c => c != Chr.slash).reverse

/-- No regular file with content: the name stands for a key id. -/
def FileTree.isKeyId : FileTree → Bool
  | .file regular size => !regular || size == 0
  | _ => true

/-- `loadCrlFile`, as far as the blacklist goes. -/
def loadCrlFile (blacklist : List (List Byte)) (crl : List Byte × FileTree) : List (List Byte) :=
  if crl.2.isKeyId then blacklist.insert (datumString (basename crl.1)) else blacklist

/-- `parseCertConfigItem` with `loadCrlFile`; `files` is what each path leads to. -/
def readBlacklist (files : List Byte → FileTree) (crl : Config) : Option (List (List Byte)) :=
  crl.items.map fun items => items.foldl (fun blacklist item =>
    let path := Config.toString (some item) []
    (parseCertConfigDir path (files path)).foldl loadCrlFile blacklist) []

/-! ### What the blacklist holds -/

mutual
/-- A path that is no directory, on a way without hidden names. -/
inductive Under : List Byte → FileTree → List Byte → FileTree → Prop
  | missing {path} : Under path .missing path .missing
  | file {path regular size} : Under path (.file regular size) path (.file regular size)
  | directory {path entries found tree} : UnderEntries path entries found tree →
      Under path (.directory entries) found tree

inductive UnderEntries : List Byte → DirEntries → List Byte → FileTree → Prop
  | here {path name sub rest found tree} : name.head? ≠ some dot →
      Under (path ++ Chr.slash :: name) sub found tree →
      UnderEntries path (.cons name sub rest) found tree
  | later {path name sub rest found tree} : UnderEntries path rest found tree →
      UnderEntries path (.cons name sub rest) found tree
end

mutual
theorem under_of_mem {found : List Byte} {leaf : FileTree} : ∀ (path : List Byte)
    (tree : FileTree), (found, leaf) ∈ parseCertConfigDir path tree → Under path tree found leaf
  | path, .missing, member => by
      cases List.mem_singleton.mp member
      exact .missing
  | path, .file regular size, member => by
      cases List.mem_singleton.mp member
      exact .file
  | path, .directory entries, member => .directory (underEntries_of_mem path entries member)

theorem underEntries_of_mem {found : List Byte} {leaf : FileTree} : ∀ (path : List Byte)
    (entries : DirEntries), (found, leaf) ∈ parseEntries path entries →
      UnderEntries path entries found leaf
  | path, .nil, member => nomatch member
  | path, .cons name sub rest, member => by
      rw [parseEntries] at member
      rcases List.mem_append.mp member with here | later
      · split at here
        · cases here
        · next seen => exact .here seen (under_of_mem _ sub here)
      · exact .later (underEntries_of_mem path rest later)
end

mutual
theorem mem_of_under {path found : List Byte} {tree leaf : FileTree} :
    Under path tree found leaf → (found, leaf) ∈ parseCertConfigDir path tree
  | .missing => List.mem_singleton_self _
  | .file => List.mem_singleton_self _
  | .directory inside => mem_of_underEntries inside

theorem mem_of_underEntries {path found : List Byte} {entries : DirEntries} {leaf : FileTree} :
    UnderEntries path entries found leaf → (found, leaf) ∈ parseEntries path entries
  | .here seen inside => by
      rw [parseEntries, if_neg seen]
      exact List.mem_append_left _ (mem_of_under inside)
  | .later inside => List.mem_append_right _ (mem_of_underEntries inside)
end

theorem mem_loadCrlFile {crl : List Byte × FileTree} {blacklist : List (List Byte)}
    {datum : List Byte} :
    datum ∈ loadCrlFile blacklist crl ↔ datum ∈ blacklist ∨
      (crl.2.isKeyId = true ∧ datumString (basename crl.1) = datum) := by
  rw [loadCrlFile]
  split
  · next marked =>
    rw [List.mem_insert_iff, or_comm, eq_comm]
    exact or_congr_right (iff_and_self.mpr fun _ => marked)
  · next marked =>
    constructor
    · exact .inl
    · rintro (before | ⟨known, -⟩)
      · exact before
      · exact absurd known marked

theorem mem_loadCrlFiles (crls : List (List Byte × FileTree)) {blacklist : List (List Byte)}
    {datum : List Byte} :
    datum ∈ crls.foldl loadCrlFile blacklist ↔ datum ∈ blacklist ∨
      ∃ crl ∈ crls, crl.2.isKeyId = true ∧ datumString (basename crl.1) = datum := by
  induction crls generalizing blacklist with
  | nil => simp
  | cons crl rest ih =>
      rw [List.foldl_cons, ih, mem_loadCrlFile, List.exists_mem_cons_iff, or_assoc]

/-- A key id that the configuration revokes: the name of a path below one of the items. -/
def Listed (files : List Byte → FileTree) (items : List Node) (datum : List Byte) : Prop :=
  ∃ item ∈ items, ∃ path leaf,
    Under (Config.toString (some item) []) (files (Config.toString (some item) [])) path leaf ∧
      leaf.isKeyId = true ∧ datumString (basename path) = datum

theorem mem_readBlacklist {files : List Byte → FileTree} {crl : Config} {items : List Node}
    {blacklist : List (List Byte)} (listed : crl.items = some items)
    (loaded : readBlacklist files crl = some blacklist) (datum : List Byte) :
    datum ∈ blacklist ↔ Listed files items datum := by
  rw [readBlacklist, listed] at loaded
  cases loaded
  have from_blacklist (items : List Node) (blacklist : List (List Byte)) :
      datum ∈ items.foldl (fun blacklist item =>
        (parseCertConfigDir (Config.toString (some item) [])
          (files (Config.toString (some item) []))).foldl loadCrlFile blacklist) blacklist ↔
      datum ∈ blacklist ∨ Listed files items datum := by
    induction items generalizing blacklist with
    | nil => simp [Listed]
    | cons item rest ih =>
        rw [List.foldl_cons, ih, mem_loadCrlFiles, or_assoc]
        refine or_congr_right ⟨?_, ?_⟩
        · rintro (⟨⟨path, leaf⟩, inside, known, same⟩ | ⟨other, inside, more⟩)
          · exact ⟨item, List.mem_cons_self, path, leaf, under_of_mem _ _ inside, known, same⟩
          · exact ⟨other, List.mem_cons_of_mem _ inside, more⟩
        · rintro ⟨other, inside, path, leaf, under, known, same⟩
          rcases List.mem_cons.mp inside with rfl | later
          · exact .inl ⟨(path, leaf), mem_of_under under, known, same⟩
          · exact .inr ⟨other, later, path, leaf, under, known, same⟩
  exact (from_blacklist items []).trans (or_iff_right nofun)

/-! ### The check of a client -/

/-- What gnutls returns about one certificate of the chain. -/
structure PeerCertificate where
  importResult : Int
  printResult : Int
  keyIdResult : Int
  keyId : List Byte

/-- What it returns about a client. -/
structure Peer where
  certificates : List PeerCertificate
  initResult : Int
  verifyResult : Int
  status : Nat

/-- The loop over the chain, whose `result` is 0 at the start of each turn. A certificate
that cannot be printed ends it, unless its key id is asked for. -/
def checkCertificates (blacklist : List (List Byte)) : List PeerCertificate → Int
  | [] => 0
  | crt :: rest =>
      if crt.importResult ≠ 0 then crt.importResult
      else if blacklist = [] then
        if crt.printResult ≠ 0 then crt.printResult else checkCertificates blacklist rest
      else if crt.keyIdResult ≠ 0 ∨ crt.keyId = [] then -1
      else if blacklist.contains crt.keyId then -1
      else checkCertificates blacklist rest

/-- `Session::gnutls_verify_client`; the handshake goes on if it returns 0. -/
def verifyClient (blacklist : List (List Byte)) (peer : Peer) : Int :=
  if peer.certificates = [] then -1
  else if peer.initResult ≠ 0 then -1
  else
    let result := checkCertificates blacklist peer.certificates
    if result ≠ 0 then result
    else if peer.verifyResult ≠ 0 then -1
    else if peer.status ≠ 0 then -1
    else 0

/-- A certificate that the loop goes past. -/
def Passes (blacklist : List (List Byte)) (crt : PeerCertificate) : Prop :=
  crt.importResult = 0 ∧
    if blacklist = [] then crt.printResult = 0
    else crt.keyIdResult = 0 ∧ crt.keyId ≠ [] ∧ crt.keyId ∉ blacklist

theorem checkCertificates_iff (blacklist : List (List Byte)) (certificates : List PeerCertificate) :
    checkCertificates blacklist certificates = 0 ↔
      ∀ crt ∈ certificates, Passes blacklist crt := by
  induction certificates with
  | nil => simp [checkCertificates]
  | cons crt rest ih =>
      rw [List.forall_mem_cons, ← ih, checkCertificates, Passes]
      by_cases read : crt.importResult = 0
      · rw [if_neg (not_not.mpr read)]
        by_cases free : blacklist = []
        · simp only [if_pos free]
          by_cases shown : crt.printResult = 0 <;> simp [read, shown]
        · simp only [if_neg free]
          by_cases known : crt.keyIdResult = 0 <;> by_cases empty : crt.keyId = [] <;>
            by_cases revoked : crt.keyId ∈ blacklist <;> simp [read, known, empty, revoked]
      · rw [if_pos read]
        simp [read]

theorem verifyClient_iff (blacklist : List (List Byte)) (peer : Peer) :
    verifyClient blacklist peer = 0 ↔ peer.certificates ≠ [] ∧ peer.initResult = 0 ∧
      (∀ crt ∈ peer.certificates, Passes blacklist crt) ∧
      peer.verifyResult = 0 ∧ peer.status = 0 := by
  rw [← checkCertificates_iff, verifyClient]
  by_cases none : peer.certificates = []
  · simp [none]
  · by_cases begun : peer.initResult = 0
    · by_cases passed : checkCertificates blacklist peer.certificates = 0
      · by_cases verified : peer.verifyResult = 0 <;> by_cases fine : peer.status = 0 <;>
          simp [none, begun, passed, verified, fine]
      · simp [none, begun, passed]
    · simp [none, begun]

theorem blacklist_nil_iff {files : List Byte → FileTree} {crl : Config} {items : List Node}
    {blacklist : List (List Byte)} (listed : crl.items = some items)
    (loaded : readBlacklist files crl = some blacklist) :
    blacklist = [] ↔ ∀ datum, ¬ Listed files items datum := by
  rw [List.eq_nil_iff_forall_not_mem]
  exact forall_congr' fun datum => not_congr (mem_readBlacklist listed loaded datum)

/-- The clients that are let in: gnutls finds nothing wrong with the chain, and where the
configuration revokes any key id, each certificate has one that it does not revoke. Where it
revokes none a certificate has to be printable. -/
theorem verifyClient_accepts_iff {files : List Byte → FileTree} {crl : Config}
    {items : List Node} {blacklist : List (List Byte)} (listed : crl.items = some items)
    (loaded : readBlacklist files crl = some blacklist) (peer : Peer) :
    verifyClient blacklist peer = 0 ↔ peer.certificates ≠ [] ∧ peer.initResult = 0 ∧
      (∀ crt ∈ peer.certificates, crt.importResult = 0 ∧
        ((∃ datum, Listed files items datum) → crt.keyIdResult = 0 ∧ crt.keyId ≠ [] ∧
          ¬ Listed files items crt.keyId) ∧
        ((∀ datum, ¬ Listed files items datum) → crt.printResult = 0)) ∧
      peer.verifyResult = 0 ∧ peer.status = 0 := by
  have passes (crt : PeerCertificate) : Passes blacklist crt ↔ crt.importResult = 0 ∧
      ((∃ datum, Listed files items datum) → crt.keyIdResult = 0 ∧ crt.keyId ≠ [] ∧
        ¬ Listed files items crt.keyId) ∧
      ((∀ datum, ¬ Listed files items datum) → crt.printResult = 0) := by
    rw [Passes, ← mem_readBlacklist listed loaded]
    refine and_congr_right fun _ => ?_
    by_cases free : blacklist = []
    · have nothing := (blacklist_nil_iff listed loaded).mp free
      have absent : ¬ ∃ datum, Listed files items datum := fun ⟨datum, here⟩ => nothing datum here
      rw [if_pos free]
      exact ⟨fun shown => ⟨fun here => absurd here absent, fun _ => shown⟩,
        fun both => both.2 nothing⟩
    · have something : ∃ datum, Listed files items datum := by
        by_contra absent
        exact free ((blacklist_nil_iff listed loaded).mpr (not_exists.mp absent))
      have taken : ¬ ∀ datum, ¬ Listed files items datum := not_forall_not.mpr something
      rw [if_neg free]
      exact ⟨fun known => ⟨fun _ => known, fun nothing => absurd nothing taken⟩,
        fun both => both.1 something⟩
  rw [verifyClient_iff]
  simp only [passes]

/-- A hidden file, and an empty file whose name is a key id. -/
def sampleFiles (path : List Byte) : FileTree :=
  if path = ascii "/crl" then
    .directory (.cons (ascii ".git") (.file true 0) (.cons (ascii "0A1b") (.file true 0) .nil))
  else .missing

def sampleCrl : Config := some (.scalar (ascii "/crl"))

def samplePeer (keyId : List Byte) : Peer := ⟨[⟨0, 0, 0, keyId⟩], 0, 0, 0⟩

theorem sampleCrl_read : readBlacklist sampleFiles sampleCrl = some [[10, 27]] := by decide

/-- Another key id is let in. -/
theorem verifyClient_accepts_other :
    verifyClient [[10, 27]] (samplePeer [10, 28]) = 0 ∧
      (verifyClient [[10, 27]] (samplePeer [10, 28]) = 0 ↔
        (samplePeer [10, 28]).certificates ≠ [] ∧ (samplePeer [10, 28]).initResult = 0 ∧
        (∀ crt ∈ (samplePeer [10, 28]).certificates, crt.importResult = 0 ∧
          ((∃ datum, Listed sampleFiles [.scalar (ascii "/crl")] datum) →
            crt.keyIdResult = 0 ∧ crt.keyId ≠ [] ∧
            ¬ Listed sampleFiles [.scalar (ascii "/crl")] crt.keyId) ∧
          ((∀ datum, ¬ Listed sampleFiles [.scalar (ascii "/crl")] datum) →
            crt.printResult = 0)) ∧
        (samplePeer [10, 28]).verifyResult = 0 ∧ (samplePeer [10, 28]).status = 0) :=
  ⟨by decide, verifyClient_accepts_iff rfl sampleCrl_read (samplePeer [10, 28])⟩

/-- A key id that is written, in capital or small letters, as the name of an empty file that
is an item or that is found below one without a hidden name on the way, keeps out every
client with a certificate that has it. -/
theorem revoked_refused {files : List Byte → FileTree} {crl : Config} {items : List Node}
    {blacklist : List (List Byte)} (listed : crl.items = some items)
    (loaded : readBlacklist files crl = some blacklist) {item : Node} (member : item ∈ items)
    (path : List Byte) (leaf : FileTree)
    (under : Under (Config.toString (some item) []) (files (Config.toString (some item) []))
      path leaf)
    (empty : leaf.isKeyId = true) {peer : Peer} {crt : PeerCertificate}
    (sent : crt ∈ peer.certificates)
    (written : (basename path).map tolower = datumText crt.keyId) :
    verifyClient blacklist peer ≠ 0 := by
  have same : datumString (basename path) = crt.keyId := by
    rw [← datumString_tolower, written, datumString_datumText]
  have revoked : crt.keyId ∈ blacklist :=
    (mem_readBlacklist listed loaded _).mpr ⟨item, member, path, leaf, under, empty, same⟩
  intro accepted
  obtain ⟨-, -, passed, -⟩ := (verifyClient_iff blacklist peer).mp accepted
  have here := (passed crt sent).2
  rw [if_neg (List.ne_nil_of_mem revoked)] at here
  exact here.2.2 revoked

/-- The key id of the empty file, in both kinds of letters. -/
theorem revoked_refused_file : verifyClient [[10, 27]] (samplePeer [10, 27]) ≠ 0 :=
  revoked_refused rfl sampleCrl_read (List.mem_singleton_self (Node.scalar (ascii "/crl")))
    (ascii "/crl/0A1b") (.file true 0)
    (.directory (.later (.here (by decide) .file))) rfl (List.mem_singleton_self _) (by decide)

end Certificates
end PdServ
