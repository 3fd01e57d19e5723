import CacheFs.Xml.SockMsg

/-! What the decoder accepts.

The flags stand for the set of the fields that were seen. A node is taken when it has
the name of a field that was not, and so each field is that of the first node of its
name (`parseChildren_eq`): the loop leaves early only when there is no field left to
take. -/
namespace CacheFs.Xml
open CacheFs.Namespace (CString)

/-! ### The fields of a message -/

/-- A field of `SOCK_MSG`. -/
inductive Tag where
  | type
  | destIp
  | fileName
  deriving DecidableEq

namespace Tag

/-- The element that has the field. -/
def name : Tag → List UInt8
  | type => xmlSockMsgType
  | destIp => xmlSockMsgDstIp
  | fileName => xmlSockMsgFn

def flag : Tag → UInt8
  | type => sockmsgTypeParseOk
  | destIp => sockmsgDstipParseOk
  | fileName => sockmsgFnParseOk

/-- What the field is for a content: its first byte is the type. -/
def reads : Tag → CString → List UInt8
  | type, s => [s.bytes.headD 0]
  | destIp, s | fileName, s => s.bytes

/-- Whether the field has room for a content. -/
def fits : Tag → CString → Prop
  | type, _ => True
  | destIp, s => s.bytes.length < inetAddrstrlen
  | fileName, s => s.bytes.length < filePathLen

theorem name_inj {t u : Tag} (h : t.name = u.name) : t = u := by
  cases t <;> cases u <;> first | rfl | exact absurd h (by decide)

end Tag

/-- A field of a message, the type as one byte. -/
def SockMsg.value (msg : SockMsg) : Tag → Option (List UInt8)
  | .type => some [msg.type]
  | .destIp => (string msg.destIp.bytes).map CString.bytes
  | .fileName => (string msg.fileName.bytes).map CString.bytes

/-- Storing a content in a field. -/
def SockMsg.store (msg : SockMsg) : Tag → CString → Option SockMsg
  | .type, s => some {msg with type := s.bytes.headD 0}
  | .destIp, s => (strcpy msg.destIp s).map fun destIp => {msg with destIp}
  | .fileName, s => (strcpy msg.fileName s).map fun fileName => {msg with fileName}

/-- What is copied into an array is the string there. -/
theorem strcpy_spec {size : Nat} (f : Field size) {s : CString} (h : s.bytes.length < size) :
    ∃ f', strcpy f s = some f' ∧ (string f'.bytes).map CString.bytes = some s.bytes := by
  refine ⟨_, dif_pos h, ?_⟩
  have htake : (s.bytes ++ 0 :: f.bytes.drop (s.bytes.length + 1)).takeWhile (· ≠ 0) = s.bytes := by
    rw [List.takeWhile_append_of_pos fun c hc => by simpa using ne_of_mem_of_not_mem hc s.terminated]
    simp
  rw [string, if_pos (by simp)]
  exact congrArg some htake

theorem SockMsg.store_spec (msg : SockMsg) {t : Tag} {s : CString} (h : t.fits s) :
    ∃ msg', msg.store t s = some msg' ∧ msg'.value t = some (t.reads s) ∧ ∀ u ≠ t, msg'.value u = msg.value u := by
  cases t with
  | type =>
    refine ⟨_, rfl, rfl, fun u hu => ?_⟩
    cases u <;> first | rfl | exact absurd rfl hu
  | destIp =>
    obtain ⟨f, hf, hstring⟩ := strcpy_spec msg.destIp h
    refine ⟨{msg with destIp := f}, by rw [store, hf]; rfl, hstring, fun u hu => ?_⟩
    cases u <;> first | rfl | exact absurd rfl hu
  | fileName =>
    obtain ⟨f, hf, hstring⟩ := strcpy_spec msg.fileName h
    refine ⟨{msg with fileName := f}, by rw [store, hf]; rfl, hstring, fun u hu => ?_⟩
    cases u <;> first | rfl | exact absurd rfl hu

/-! ### The flags -/

/-- The flags of the fields that were seen. -/
def flags (seen : Tag → Bool) : UInt8 :=
  (if seen .type then sockmsgTypeParseOk else 0) ||| (if seen .destIp then sockmsgDstipParseOk else 0) |||
    if seen .fileName then sockmsgFnParseOk else 0

section Flags
variable {seen : Tag → Bool} {t : Tag}

theorem flags_unseen : flags seen &&& t.flag = 0 ↔ seen t = false := by
  cases hty : seen .type <;> cases hip : seen .destIp <;> cases hfn : seen .fileName <;> cases t <;>
    simp only [flags, hty, hip, hfn, Tag.flag] <;> decide

theorem flags_seeing : flags seen ||| t.flag = flags (Function.update seen t true) := by
  cases hty : seen .type <;> cases hip : seen .destIp <;> cases hfn : seen .fileName <;> cases t <;>
    simp [flags, Function.update, hty, hip, hfn, Tag.flag] <;> decide

theorem flags_all : flags seen = sockmsgParseOk ↔ ∀ t, seen t = true := by
  have hall : (∀ t, seen t = true) ↔ seen .type = true ∧ seen .destIp = true ∧ seen .fileName = true :=
    ⟨fun h => ⟨h _, h _, h _⟩, fun h t => by cases t; exacts [h.1, h.2.1, h.2.2]⟩
  rw [hall]
  cases hty : seen .type <;> cases hip : seen .destIp <;> cases hfn : seen .fileName <;>
    simp only [flags, hty, hip, hfn] <;> decide

end Flags

/-! ### The loop -/

/-- The content of the first node of a name. -/
def first (children : List Node) (name : List UInt8) : Option CString :=
  (children.find? fun n => n.name = name).map Node.content

section Loop
variable {seen : Tag → Bool} {curNode : Node} {next : List Node} {msg : SockMsg} {t : Tag}

theorem first_here (h : curNode.name = t.name) : first (curNode :: next) t.name = some curNode.content := by
  simp [first, h]

theorem first_next {name : List UInt8} (h : curNode.name ≠ name) :
    first (curNode :: next) name = first next name := by
  simp [first, h]

/-- A node of a field that was not seen is stored there. -/
theorem parseChildren_take (hunseen : seen t = false) (hname : curNode.name = t.name) :
    parseChildren (curNode :: next) (flags seen) msg =
      (msg.store t curNode.content).bind fun msg' =>
        if flags (Function.update seen t true) = sockmsgParseOk then some (flags (Function.update seen t true), msg')
        else parseChildren next (flags (Function.update seen t true)) msg' := by
  have hflag := flags_unseen.mpr hunseen
  have hip : xmlSockMsgDstIp ≠ xmlSockMsgType := by decide
  have hfn : xmlSockMsgFn ≠ xmlSockMsgType ∧ xmlSockMsgFn ≠ xmlSockMsgDstIp := by decide
  rw [parseChildren, hname, ← flags_seeing]
  cases t with
  | type => exact if_pos ⟨hflag, rfl⟩
  | destIp =>
    rw [if_neg fun h => hip h.2, if_pos ⟨hflag, rfl⟩]
    rw [SockMsg.store, Option.bind_map]
    rfl
  | fileName =>
    rw [if_neg fun h => hfn.1 h.2, if_neg fun h => hfn.2 h.2, if_pos ⟨hflag, rfl⟩]
    rw [SockMsg.store, Option.bind_map]
    rfl

/-- Any other node is passed over. -/
theorem parseChildren_skip (h : ∀ t, curNode.name = t.name → seen t = true) :
    parseChildren (curNode :: next) (flags seen) msg = parseChildren next (flags seen) msg := by
  have hnot (t : Tag) : ¬ (flags seen &&& t.flag = 0 ∧ curNode.name = t.name) := by
    intro ht
    rw [flags_unseen, h t ht.2] at ht
    cases ht.1
  rw [parseChildren]
  exact (if_neg (hnot .type)).trans ((if_neg (hnot .destIp)).trans (if_neg (hnot .fileName)))

/-- When the loop ends, a field was seen if it was before or if its name is there, and has the
content of the first node of that name if it was not seen before. -/
theorem parseChildren_eq (children : List Node) (hfits : ∀ n ∈ children, ∀ t : Tag, n.name = t.name → t.fits n.content)
    (seen : Tag → Bool) (msg : SockMsg) : ∃ seen' msg', parseChildren children (flags seen) msg = some (flags seen', msg') ∧
      (∀ t, seen' t = true ↔ seen t = true ∨ (first children t.name).isSome) ∧
      ∀ t, msg'.value t = if seen t then msg.value t else (first children t.name).elim (msg.value t) (some ∘ t.reads) := by
  induction children generalizing seen msg with
  | nil => exact ⟨seen, msg, rfl, fun t => by simp [first], fun t => by simp [first]⟩
  | cons curNode next ih =>
    have hnext := fun n hn => hfits n (List.mem_cons_of_mem _ hn)
    by_cases htake : ∃ t : Tag, curNode.name = t.name ∧ seen t = false
    · obtain ⟨t, hname, hunseen⟩ := htake
      obtain ⟨msg₁, hstore, hvalue, hothers⟩ := msg.store_spec (hfits curNode List.mem_cons_self t hname)
      have hother {u : Tag} (hu : u ≠ t) : first (curNode :: next) u.name = first next u.name :=
        first_next fun h => hu (Tag.name_inj (hname.symm.trans h)).symm
      rw [parseChildren_take hunseen hname, hstore, Option.bind_some]
      split
      · rename_i hall
        rw [flags_all] at hall
        -- every field but `t` was seen before
        have hseen {u : Tag} (hu : u ≠ t) : seen u = true := by
          have := hall u
          rwa [Function.update_of_ne hu] at this
        refine ⟨_, msg₁, rfl, fun u => ?_, fun u => ?_⟩
        · by_cases hu : u = t
          · simp [hu, first_here hname]
          · simp [hall u, hseen hu]
        · by_cases hu : u = t
          · simp [hu, hunseen, first_here hname, hvalue]
          · simp [hseen hu, hothers u hu]
      · obtain ⟨seen', msg', hparse, hseen', hvalue'⟩ := ih hnext (Function.update seen t true) msg₁
        refine ⟨seen', msg', hparse, fun u => ?_, fun u => ?_⟩
        · by_cases hu : u = t
          · subst hu
            simp [hseen' u, first_here hname]
          · simp [hseen' u, hu, hother hu]
        · by_cases hu : u = t
          · subst hu
            simp [hvalue' u, hunseen, first_here hname, hvalue]
          · simp [hvalue' u, hu, hother hu, hothers u hu]
    · have hskip : ∀ t : Tag, curNode.name = t.name → seen t = true := fun t ht => by
        by_contra hne
        exact htake ⟨t, ht, by simpa using hne⟩
      obtain ⟨seen', msg', hparse, hseen', hvalue'⟩ := ih hnext seen msg
      have hother {u : Tag} (hu : seen u = false) : first (curNode :: next) u.name = first next u.name :=
        first_next fun h => by simp [hskip u h] at hu
      refine ⟨seen', msg', (parseChildren_skip hskip).trans hparse, fun u => ?_, fun u => ?_⟩
      · cases hu : seen u with
        | true => simp [hseen' u, hu]
        | false => simp [hseen' u, hu, hother hu]
      · cases hu : seen u with
        | true => simp [hvalue' u, hu]
        | false => simp [hvalue' u, hu, hother hu]

end Loop

/-! ### The decoder -/

/-- The root is `sock_msg`, and has a child of each of the three names. -/
def Accepted (doc : Doc) : Prop :=
  ∃ root, doc = some (some root) ∧ root.name = xmlSockMsgRoot ∧
    ∀ name ∈ [xmlSockMsgType, xmlSockMsgDstIp, xmlSockMsgFn], ∃ n ∈ root.children, n.name = name

/-- The contents of the address and the file name fit their arrays. -/
def Fits (doc : Doc) : Prop :=
  ∀ root, doc = some (some root) → ∀ n ∈ root.children,
    (n.name = xmlSockMsgDstIp → n.content.bytes.length < inetAddrstrlen) ∧
    (n.name = xmlSockMsgFn → n.content.bytes.length < filePathLen)

/-- A message has the contents of the first children of the three names. -/
structure HasFirst (children : List Node) (msg : SockMsg) : Prop where
  type : ∃ s, first children xmlSockMsgType = some s ∧ msg.type = s.bytes.headD 0
  destIp : ∃ s, first children xmlSockMsgDstIp = some s ∧ (string msg.destIp.bytes).map CString.bytes = some s.bytes
  fileName : ∃ s, first children xmlSockMsgFn = some s ∧ (string msg.fileName.bytes).map CString.bytes = some s.bytes

/-- The decoder returns 0 and the first of each for a document that it should accept, and 4
for any other. -/
structure Decoded (doc : Doc) (result : Option (UInt32 × SockMsg)) : Prop where
  accepts : Accepted doc → ∃ msg root, result = some (0, msg) ∧ doc = some (some root) ∧ HasFirst root.children msg
  refuses : ¬ Accepted doc → ∃ msg, result = some (4, msg)

theorem first_isSome {children : List Node} {name : List UInt8} :
    (first children name).isSome ↔ ∃ n ∈ children, n.name = name := by
  simp [first, List.find?_isSome]

/-- A document is accepted just when every field has a node. -/
theorem accepted_iff {root : Root} :
    Accepted (some (some root)) ↔ root.name = xmlSockMsgRoot ∧ ∀ t : Tag, (first root.children t.name).isSome := by
  constructor
  · intro h
    obtain ⟨_, ⟨⟩, hroot, hnames⟩ := h
    refine ⟨hroot, fun t => first_isSome.mpr (hnames t.name ?_)⟩
    cases t <;> decide
  · intro h
    obtain ⟨hroot, hall⟩ := h
    refine ⟨root, rfl, hroot, fun name hname => ?_⟩
    simp only [List.mem_cons, List.not_mem_nil, or_false] at hname
    obtain rfl | rfl | rfl := hname
    · exact first_isSome.mp (hall .type)
    · exact first_isSome.mp (hall .destIp)
    · exact first_isSome.mp (hall .fileName)

theorem HasFirst.of_values {children : List Node} {msg : SockMsg}
    (h : ∀ t : Tag, ∃ s, first children t.name = some s ∧ msg.value t = some (t.reads s)) : HasFirst children msg := by
  obtain ⟨s, hs, htype⟩ := h .type
  exact ⟨⟨s, hs, by simpa [SockMsg.value, Tag.reads] using htype⟩, h .destIp, h .fileName⟩

theorem parseDoc_decoded {doc : Doc} (hfits : Fits doc) (msg : SockMsg) : Decoded doc (parseDoc doc msg) := by
  have hnone : (0 : UInt8) ≠ sockmsgParseOk := by decide
  match doc, hfits with
  | none, _ | some none, _ =>
    refine ⟨fun h => ?_, fun _ => ⟨msg, rfl⟩⟩
    obtain ⟨_, ⟨⟩, -⟩ := h
  | some (some root), hfits =>
    by_cases hroot : root.name = xmlSockMsgRoot
    · have hfits' (n : Node) (hn : n ∈ root.children) (t : Tag) (ht : n.name = t.name) : t.fits n.content := by
        cases t with
        | type => trivial
        | destIp => exact (hfits root rfl n hn).1 ht
        | fileName => exact (hfits root rfl n hn).2 ht
      obtain ⟨seen, msg', hparse, hseen, hvalue⟩ := parseChildren_eq root.children hfits' (fun _ => false) msg
      have hstart : flags (fun _ => false) = 0 := rfl
      rw [hstart] at hparse
      have hall : flags seen = sockmsgParseOk ↔ Accepted (some (some root)) := by
        simp [flags_all, accepted_iff, hroot, hseen]
      refine ⟨fun h => ⟨msg', root, ?_, rfl, .of_values fun t => ?_⟩, fun h => ⟨msg', ?_⟩⟩
      · simp [parseDoc, hroot, hparse, hall.mpr h]
      · obtain ⟨s, hs⟩ := Option.isSome_iff_exists.mp ((accepted_iff.mp h).2 t)
        exact ⟨s, hs, by simp [hvalue, hs]⟩
      · simp [parseDoc, hroot, hparse, mt hall.mp h]
    · refine ⟨fun h => absurd (accepted_iff.mp h).1 hroot, fun _ => ⟨msg, ?_⟩⟩
      simp [parseDoc, hroot, hnone]

/-- **What the decoder accepts**: from a file or a descriptor, just the documents with root
`sock_msg` and a child of each of the three names, and of these it takes the first. -/
theorem decoder_correct (xmlReadFile xmlReadFd : List UInt8 → Doc) (xmlFile : Option (List UInt8)) (fd : List UInt8)
    (msg : SockMsg) :
    (Fits (xmlReadFile (xmlFile.getD (ascii "-"))) →
      Decoded (xmlReadFile (xmlFile.getD (ascii "-"))) (xmlToSockMsg xmlReadFile xmlFile msg)) ∧
    (Fits (xmlReadFd fd) → Decoded (xmlReadFd fd) (xmlToSockMsgParseFromFd xmlReadFd fd msg)) :=
  ⟨fun h => parseDoc_decoded h msg, fun h => parseDoc_decoded h msg⟩

/-- A file name before the type, another after it, and a node of no field. -/
theorem decoder_correct_disorder : ∃ doc msg, Accepted doc ∧ Decoded doc (xmlToSockMsg (fun _ => doc) none msg) ∧
    Decoded doc (xmlToSockMsgParseFromFd (fun _ => doc) [] msg) := by
  let a : CString := ⟨[97], by decide⟩
  let b : CString := ⟨[98], by decide⟩
  let children : List Node := [⟨xmlSockMsgFn, a⟩, ⟨xmlSockMsgType, a⟩, ⟨ascii "text", b⟩, ⟨xmlSockMsgFn, b⟩,
    ⟨xmlSockMsgDstIp, b⟩]
  have hfits : Fits (some (some ⟨xmlSockMsgRoot, children⟩)) := by
    intro root hroot n hn
    cases hroot
    have hlength : ∀ n ∈ children, n.content.bytes.length = 1 := by decide
    rw [hlength n hn]
    exact ⟨fun _ => by decide, fun _ => by decide⟩
  let msg : SockMsg := ⟨0, ⟨List.replicate 16 0, List.length_replicate⟩, ⟨List.replicate 260 0, List.length_replicate⟩⟩
  have hdecoded := decoder_correct (fun _ => some (some ⟨xmlSockMsgRoot, children⟩))
    (fun _ => some (some ⟨xmlSockMsgRoot, children⟩)) none [] msg
  refine ⟨_, _, ⟨_, rfl, rfl, ?_⟩, hdecoded.1 hfits, hdecoded.2 hfits⟩
  decide

end CacheFs.Xml
