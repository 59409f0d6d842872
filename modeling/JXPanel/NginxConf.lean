import JXPanel.AppConfig

namespace JXPanel
set_option autoImplicit true

structure SslInfo where
  key : String
  crt : String
deriving DecidableEq

/-- An address of an interface, and whether it is taken for one of IPv6. -/
structure Address where
  ip : String
  ipv6 : Bool
deriving DecidableEq

structure Listen where
  address : Address
  sport : Nat
  ipv6only : Bool
  ssl : Bool
  default_server : Bool
deriving DecidableEq

structure ServerBlock where
  listen : Listen
  server_names : List String
  body : String
deriving DecidableEq

structure NginxConf where
  preamble : String
  upstreams : List (String × String)
  servers : List ServerBlock
deriving DecidableEq

namespace Address

def ofString (ip : String) : Address := ⟨ip, ip.toList.contains ':'⟩

/-- The address that an item of a list stands for, none if it is skipped. -/
def ofVal (ip : JsVal) : Js (Option Address) :=
  if ip.truthy then
    match ip with
    | .str s => .ok (some (ofString s))
    | .arr l => .ok (some ⟨ip.toKey, l.any fun v => v.strictEq (.str ":")⟩)
    | _ => .error .typeError
  else .ok none

def text (a : Address) : String := if a.ipv6 then "[" ++ a.ip ++ "]" else a.ip

end Address

def Listen.text (l : Listen) : String :=
  "  listen " ++ l.address.text ++ ":" ++ toString l.sport ++
    (if l.ipv6only then " ipv6only=on" else "") ++ (if l.ssl then " ssl" else "") ++
    (if l.default_server then " default_server" else "") ++ ";\n"

def ServerBlock.text (b : ServerBlock) : String :=
  "server\x7b\n" ++ b.listen.text ++
    String.join (b.server_names.map fun name => "  server_name " ++ name ++ ";\n") ++ b.body ++ "\x7d\n"

def NginxConf.text (c : NginxConf) : String :=
  c.preamble ++
    String.join (c.upstreams.map fun u =>
      "upstream " ++ u.1 ++ " \x7b\n  server " ++ u.2 ++ ";\n\x7d\n\n") ++
    String.join (c.servers.map fun b => b.text ++ "\n\n")

/-- Two semicolons in a row are one. -/
def joinSemicolons : List Char → List Char
  | ';' :: ';' :: cs => ';' :: joinSemicolons cs
  | c :: cs => c :: joinSemicolons cs
  | [] => []

/-- The directives of a plan, each on a line. -/
def directivesText (directives : Option String) : String :=
  match directives with
  | none => ""
  | some d =>
    let cs := joinSemicolons ((trim d.toList ++ [';']).filter (· ≠ '\n'))
    let cs := cs.flatMap fun c => if c = ';' then ";\n    ".toList else [c]
    "  #plan`s directives\n  " ++ String.ofList (trim cs) ++ "\n"

def sslLines (sport : Nat) (ssl_info : Option SslInfo) : String :=
  match ssl_info with
  | none => ""
  | some info =>
    if sport = 443 then
      "  ssl on;\n  ssl_certificate_key " ++ info.key ++ ";\n  ssl_certificate " ++ info.crt ++ ";\n"
    else ""

def proxyLines (domain : String) : String :=
  "  location / \x7b\n    proxy_pass http://jxcore_target_" ++ domain ++ ";\n" ++
  "    proxy_read_timeout 9999999;\n    proxy_http_version 1.1;\n" ++
  "    proxy_set_header Upgrade $http_upgrade;\n    proxy_set_header Connection \"Upgrade\";\n" ++
  "    proxy_set_header Host $host;\n    proxy_set_header X-Real-IP $remote_addr;\n  \x7d\n"

def logLines (log_location : Option String) : String :=
  match log_location with
  | none => ""
  | some l =>
    "  location /jxcore_logs \x7b\n    autoindex on;\n    alias " ++ l ++
      ";\n    add_header Content-type text/plain;\n  \x7d\n"

def serverNames (domain : String) : List String := [domain, "www." ++ domain, "ipv4." ++ domain]

def siteListen (sport : Nat) (ip : Address) : Listen := ⟨ip, sport, ip.ipv6, sport == 443, false⟩

def createConfig (domain : String) (node_ports : List JsVal) (log_location directives : Option String)
    (ssl_info : Option SslInfo) (ifc_list : List (Option Address)) : NginxConf :=
  let sports := [80] ++ (if ssl_info.isSome then [443] else [])
  { preamble := "map $http_upgrade $connection_upgrade \x7b\n  default upgrade;\n  '' close;\n\x7d\n\n"
    upstreams := [("jxcore_target_" ++ domain,
      "127.0.0.1:" ++ (node_ports.head?.getD .undefined).toKey)]
    servers := sports.flatMap fun sport => (ifc_list.filterMap id).map fun ip =>
      { listen := siteListen sport ip
        server_names := serverNames domain
        body := sslLines sport ssl_info ++ proxyLines domain ++ logLines log_location ++
          directivesText directives } }

def panelLines : String :=
  "\n  location / \x7b\n    proxy_pass http://127.0.0.1:8000;\n    proxy_set_header Host $host;\n" ++
  "    proxy_set_header X-Real-IP $remote_addr;\n" ++
  "    proxy_set_header X-Forwarded-For $proxy_add_x_forwarded_for;\n  \x7d\n"

def notFoundLines : String :=
  "\n  proxy_set_header Host $host;\n  proxy_set_header X-Real-IP $remote_addr;\n  return 404;\n"

def defaultListen (sport : Nat) (ip : Address) : Listen := ⟨ip, sport, ip.ipv6, sport == 443, true⟩

def defaultPorts (panel_port : Option Nat) : List Nat :=
  [80, 443] ++ panel_port.toList.filter (· ≠ 0)

def createDefaultConfig (ssl_info : SslInfo) (ifc_list : List Address) (panel_port : Option Nat) :
    NginxConf :=
  { preamble := ""
    upstreams := []
    servers := (defaultPorts panel_port).flatMap fun sport => ifc_list.map fun ip =>
      { listen := defaultListen sport ip
        server_names := []
        body := sslLines sport (some ssl_info) ++
          if panel_port = some sport then panelLines else notFoundLines } }

/-- What the panel is told by the machine it runs on. -/
structure Machine where
  ifcv4_list : List String
  ifcv6_list : List String
  /-- The path of a file in the directory of an application. -/
  app_path : String → String → String
  /-- Why the data of an application are not found. -/
  app_error : String → Option String
  isMonitorSecured : Bool
  dirMonitorCertificates : String

namespace Machine
variable (m : Machine)

def getAllIPs : List String := m.ifcv6_list ++ m.ifcv4_list

def items : JsVal → List JsVal
  | .arr l => l
  | .str s => s.toList.map fun c => .str (String.singleton c)
  | .obj fs => fs.map Prod.snd
  | _ => []

def getPlanIPs (plan : Plan) : List String :=
  if plan.name = unlimitedPlanName then m.getAllIPs
  else
    (items (prop plan.fields "plan_ipv6_pool")).filterMap fun v =>
      match v with
      | .str ip => if ip ∈ m.ifcv6_list then some ip else none
      | _ => none

end Machine

structure Site where
  domain : String
  node_ports : List JsVal
  log_location : Option String
  directives : Option String
  ssl_info : Option SslInfo
  ips : List (Option Address)

def Site.conf (t : Site) : NginxConf :=
  createConfig t.domain t.node_ports t.log_location t.directives t.ssl_info t.ips

namespace Store
variable (m : Machine) (s : Store)

/-- `getDomainIPs(domain, "both")`: none if there is an error to report. -/
def getDomainIPs (domain : Domain) : Js (Option (List JsVal)) :=
  match s.getDomain? domain.name with
  | none => .error (.thrown (domain.name ++ " domain doesn't exist"))
  | some d =>
    match s.users.get? d.owner with
    | none => .error .typeError
    | some user =>
      match s.plans.get? user.plan with
      | none => .ok none
      | some plan =>
        let sub_ipv6 := prop domain.fields "sub_ipv6"
        if sub_ipv6.truthy && !(m.getPlanIPs plan).any fun ip => sub_ipv6.strictEq (.str ip) then .ok none
        else .ok (some [sub_ipv6, prop domain.fields "sub_ipv4"])

def pathOf (domain_name : String) (v : JsVal) : Js String :=
  match v with
  | .str file => .ok (m.app_path domain_name file)
  | _ => .error .typeError

def appGetSSLInfo (domain_name : String) (ssl ssl_crt ssl_key : JsVal) : Js (Option SslInfo) :=
  if ssl.truthy then do
    let key ← pathOf m domain_name ssl_key
    let crt ← pathOf m domain_name ssl_crt
    return some ⟨key, crt⟩
  else .ok none

/-- The directives of a plan must have `trim`. -/
def planDirectives (plan : Plan) : Js (Option String) :=
  let v := prop plan.fields "plan_nginx_directives"
  if v.truthy then
    match v with
    | .str d => .ok (some d)
    | _ => .error .typeError
  else .ok none

/-- The call of `createConfig` in `appSaveNginxConfigPath`, none if an error is returned before. -/
def site (domain_name : String) : Js (Option Site) :=
  match s.appRecords domain_name with
  | .error _ => .ok none
  | .ok (domain, _, plan) => do
    let _ ← s.appConfig m.isMonitorSecured m.dirMonitorCertificates domain plan
    if (m.app_error domain_name).isSome then return none
    let field := prop domain.fields
    let _ ← pathOf m domain_name (field "jx_app_path")
    let ssl_info ← appGetSSLInfo m domain_name (field "ssl") (field "ssl_crt") (field "ssl_key")
    match ← s.getDomainIPs m domain with
    | none => return none
    | some ips =>
      let directives ← planDirectives plan
      let ips ← ips.mapM Address.ofVal
      return some
        { domain := domain_name
          node_ports := [field "port_http", field "port_https"]
          log_location := if (field "jx_web_log").truthy then
            some (m.app_path domain_name "jxcore_logs/index.txt") else none
          directives, ssl_info, ips }

def sites : List Site := s.domains.keys.filterMap fun name => (s.site m name).toOption.join

/-- The files that are generated for the domains of a store, the default one first. -/
def nginxFiles (ssl_info : SslInfo) (panel_port : Option Nat) : List NginxConf :=
  createDefaultConfig ssl_info (m.getAllIPs.map Address.ofString) panel_port :: (s.sites m).map Site.conf

end Store

def countListens (option : Listen → Bool) (files : List NginxConf) (a : Address) (port : Nat) : Nat :=
  ((files.flatMap (·.servers)).filter fun b =>
    option b.listen && b.listen.address == a && b.listen.sport == port).length

/-- A name as nginx compares it, without the case of its letters. -/
def foldCase (name : String) : String := name.map Char.toLower

/-- What nginx asks of all files together. -/
structure Loadable (files : List NginxConf) : Prop where
  options : ∀ a port, countListens Listen.ipv6only files a port ≤ 1
  default_server : ∀ a port, countListens Listen.default_server files a port ≤ 1
  upstreams : ((files.flatMap (·.upstreams)).map fun u => foldCase u.1).Nodup

variable {option : Listen → Bool} {files files' : List NginxConf} {a : Address} {port : Nat}

theorem countListens_cons (c : NginxConf) :
    countListens option (c :: files) a port =
      countListens option [c] a port + countListens option files a port := by
  rw [countListens, countListens, countListens, List.flatMap_cons, List.filter_append,
    List.length_append, List.flatMap_singleton]

variable {keep : Address → Bool} {sports : List Nat} {ips : List Address}

theorem length_filter_row {mk : Address → ServerBlock} {p : Nat} (hsport : ∀ ip, (mk ip).listen.sport = p)
    (haddress : ∀ ip, (mk ip).listen.address = ip) (hoption : ∀ ip, option (mk ip).listen = keep ip) :
    ((ips.map mk).filter fun b =>
      option b.listen && b.listen.address == a && b.listen.sport == port).length =
      if p = port then (ips.filter keep).count a else 0 := by
  rw [List.filter_map, List.length_map]
  split
  · rename_i hp
    rw [List.count_eq_countP, List.countP_eq_length_filter, List.filter_filter]
    congr 2
    funext ip
    rw [Function.comp_apply, hoption, haddress, hsport, hp, beq_self_eq_true, Bool.and_true,
      Bool.and_comm]
  · rename_i hp
    rw [List.length_eq_zero_iff, List.filter_eq_nil_iff]
    intro ip _ hb
    rw [Function.comp_apply, hsport, Bool.and_eq_true] at hb
    exact hp (beq_iff_eq.1 hb.2)

/-- Every port with every address: an address and port is met as often as its parts say. -/
theorem length_filter_product {mk : Nat → Address → ServerBlock}
    (hsport : ∀ p ip, (mk p ip).listen.sport = p) (haddress : ∀ p ip, (mk p ip).listen.address = ip)
    (hoption : ∀ p ip, option (mk p ip).listen = keep ip) :
    ((sports.flatMap fun p => ips.map (mk p)).filter fun b =>
      option b.listen && b.listen.address == a && b.listen.sport == port).length =
      sports.count port * (ips.filter keep).count a := by
  induction sports with
  | nil => rw [List.flatMap_nil, List.filter_nil, List.length_nil, List.count_nil, Nat.zero_mul]
  | cons p sports ih =>
    rw [List.flatMap_cons, List.filter_append, List.length_append, ih,
      length_filter_row (hsport p) (haddress p) (hoption p), List.count_cons, Nat.add_mul, Nat.add_comm]
    by_cases hp : p = port
    · rw [if_pos hp, if_pos (beq_iff_eq.2 hp), Nat.one_mul]
    · rw [if_neg hp, if_neg (fun hb => hp (beq_iff_eq.1 hb)), Nat.zero_mul]

def Site.ports (t : Site) : List Nat := [80] ++ (if t.ssl_info.isSome then [443] else [])

def Site.ipv6 (t : Site) : List Address := (t.ips.filterMap id).filter Address.ipv6

theorem count_conf (t : Site) (h : ∀ p ip, option (siteListen p ip) = keep ip) :
    countListens option [t.conf] a port =
      t.ports.count port * ((t.ips.filterMap id).filter keep).count a := by
  rw [countListens, List.flatMap_singleton]
  apply length_filter_product
  · exact fun _ _ => rfl
  · exact fun _ _ => rfl
  · exact h

theorem count_createDefaultConfig (ssl_info : SslInfo) (panel_port : Option Nat)
    (h : ∀ p ip, option (defaultListen p ip) = keep ip) :
    countListens option [createDefaultConfig ssl_info ips panel_port] a port =
      (defaultPorts panel_port).count port * (ips.filter keep).count a := by
  rw [countListens, List.flatMap_singleton]
  apply length_filter_product
  · exact fun _ _ => rfl
  · exact fun _ _ => rfl
  · exact h

theorem nodup_ports (t : Site) : t.ports.Nodup := by
  rw [Site.ports]
  split <;> decide

/-- The sites listen at an address of IPv6 at most as often as it occurs among them, and at port 80
just so often. -/
theorem count_sites (ts : List Site) :
    (∀ port, countListens Listen.ipv6only (ts.map Site.conf) a port ≤ (ts.flatMap Site.ipv6).count a) ∧
      countListens Listen.ipv6only (ts.map Site.conf) a 80 = (ts.flatMap Site.ipv6).count a := by
  induction ts with
  | nil => exact ⟨fun _ => Nat.zero_le _, rfl⟩
  | cons t ts ih =>
    have hcons : ∀ p, countListens Listen.ipv6only ((t :: ts).map Site.conf) a p =
        t.ports.count p * t.ipv6.count a + countListens Listen.ipv6only (ts.map Site.conf) a p := by
      intro p
      rw [List.map_cons, countListens_cons]
      congr 1
      exact count_conf t fun _ _ => rfl
    have hhttp : t.ports.count 80 = 1 :=
      List.count_eq_one_of_mem (nodup_ports t) List.mem_cons_self
    have hleast : ∀ port, t.ports.count port * t.ipv6.count a ≤ t.ipv6.count a := by
      intro port
      have hone := Nat.mul_le_mul_right (t.ipv6.count a) (List.nodup_iff_count_le_one.1 (nodup_ports t) port)
      rwa [Nat.one_mul] at hone
    rw [List.flatMap_cons, List.count_append]
    constructor
    · intro port
      rw [hcons]
      exact Nat.add_le_add (hleast port) (ih.1 port)
    · rw [hcons, hhttp, ih.2, Nat.one_mul]

theorem count_default_sites (ts : List Site) :
    countListens Listen.default_server (ts.map Site.conf) a port = 0 := by
  induction ts with
  | nil => rfl
  | cons t ts ih =>
    have hkeep : ∀ p ip, (siteListen p ip).default_server = (fun _ : Address => false) ip :=
      fun _ _ => rfl
    have hnone : countListens Listen.default_server [t.conf] a port = 0 := by
      rw [count_conf t hkeep, List.filter_false, List.count_nil, Nat.mul_zero]
    rw [List.map_cons, countListens_cons, hnone, ih]

namespace Machine

def addresses (m : Machine) : List Address := m.getAllIPs.map Address.ofString

end Machine

/-- The interfaces have an address only once, the panel has a port of its own, no address of IPv6
that a domain is served at is one of the default configuration or of another domain, and the names
of the domains differ in more than the case of their letters. -/
structure SitesApart (m : Machine) (s : Store) (panel_port : Option Nat) : Prop where
  interfaces : m.getAllIPs.Nodup
  panel : m.getAllIPs = [] ∨ panel_port ≠ some 80 ∧ panel_port ≠ some 443
  sites : ((s.sites m).flatMap Site.ipv6).Nodup
  default_conf : ∀ a ∈ (s.sites m).flatMap Site.ipv6, a ∉ m.addresses
  names : ((s.sites m).map fun t => foldCase t.domain).Nodup

variable {m : Machine} {s : Store} {panel_port : Option Nat}

theorem ofString_injective : Function.Injective Address.ofString :=
  fun _ _ h => congrArg Address.ip h

theorem nodup_defaultPorts (h : panel_port ≠ some 80 ∧ panel_port ≠ some 443) :
    (defaultPorts panel_port).Nodup := by
  cases panel_port with
  | none => decide
  | some p =>
    have h80 : p ≠ 80 := fun he => h.1 (congrArg some he)
    have h443 : p ≠ 443 := fun he => h.2 (congrArg some he)
    rw [defaultPorts, Option.toList_some, List.filter_singleton]
    by_cases h0 : p ≠ 0
    · rw [decide_eq_true h0]
      simp [Ne.symm h80, Ne.symm h443]
    · rw [decide_eq_false h0]
      simp

theorem two_le_count (h : panel_port = some 80 ∨ panel_port = some 443) :
    ∃ port, 2 ≤ (defaultPorts panel_port).count port := by
  rcases h with rfl | rfl
  · exact ⟨80, by decide⟩
  · exact ⟨443, by decide⟩

theorem foldCase_append (a b : String) : foldCase (a ++ b) = foldCase a ++ foldCase b := by
  apply String.toList_inj.1
  rw [foldCase, foldCase, foldCase, String.toList_map, String.toList_append, String.toList_append, String.toList_map,
    String.toList_map, List.map_append]

theorem upstreams_map_conf (ts : List Site) : ((ts.map Site.conf).flatMap (·.upstreams)).map (fun u => foldCase u.1) =
    (ts.map fun t => foldCase t.domain).map fun domain => foldCase "jxcore_target_" ++ domain := by
  induction ts with
  | nil => rfl
  | cons t ts ih =>
    rw [List.map_cons, List.flatMap_cons, List.map_append, ih, List.map_cons, List.map_cons, ← foldCase_append]
    rfl

theorem nodup_upstreams_iff (m : Machine) (s : Store) (ssl_info : SslInfo) :
    (((s.nginxFiles m ssl_info panel_port).flatMap (·.upstreams)).map fun u => foldCase u.1).Nodup ↔
      ((s.sites m).map fun t => foldCase t.domain).Nodup := by
  have hinj : Function.Injective fun domain : String => foldCase "jxcore_target_" ++ domain :=
    fun _ _ h => String.append_right_inj _ |>.1 h
  refine Iff.trans ?_ (List.nodup_map_iff hinj)
  rw [← upstreams_map_conf]
  exact Iff.rfl

/-- The files make one configuration that nginx loads just when the sites are apart. -/
theorem loadable_iff (m : Machine) (s : Store) (ssl_info : SslInfo) (panel_port : Option Nat) :
    Loadable (s.nginxFiles m ssl_info panel_port) ↔ SitesApart m s panel_port := by
  have hoptions : ∀ a port, countListens Listen.ipv6only (s.nginxFiles m ssl_info panel_port) a port =
      (defaultPorts panel_port).count port * (m.addresses.filter Address.ipv6).count a +
        countListens Listen.ipv6only ((s.sites m).map Site.conf) a port := by
    intro a port
    rw [Store.nginxFiles, countListens_cons]
    congr 1
    exact count_createDefaultConfig ssl_info panel_port fun _ _ => rfl
  have hdefault : ∀ a port, countListens Listen.default_server (s.nginxFiles m ssl_info panel_port) a port =
      (defaultPorts panel_port).count port * m.addresses.count a := by
    intro a port
    have hkeep : ∀ p ip, (defaultListen p ip).default_server = (fun _ : Address => true) ip :=
      fun _ _ => rfl
    have hcount : countListens Listen.default_server
        [createDefaultConfig ssl_info m.addresses panel_port] a port =
          (defaultPorts panel_port).count port * (m.addresses.filter fun _ => true).count a :=
      count_createDefaultConfig ssl_info panel_port hkeep
    rw [List.filter_true] at hcount
    rw [Store.nginxFiles, countListens_cons, count_default_sites, Nat.add_zero]
    exact hcount
  constructor
  · intro h
    have h80 : 1 ≤ (defaultPorts panel_port).count 80 := List.one_le_count_iff.2 List.mem_cons_self
    have haddresses : m.addresses.Nodup := by
      rw [List.nodup_iff_count_le_one]
      intro a
      have hone := h.default_server a 80
      rw [hdefault] at hone
      exact le_trans (Nat.le_mul_of_pos_left _ h80) hone
    have hhttp : ∀ a, (m.addresses.filter Address.ipv6).count a +
        ((s.sites m).flatMap Site.ipv6).count a ≤ 1 := by
      intro a
      have hone := h.options a 80
      rw [hoptions, (count_sites (s.sites m)).2] at hone
      exact le_trans (Nat.add_le_add_right (Nat.le_mul_of_pos_left _ h80) _) hone
    refine ⟨haddresses.of_map, ?_, ?_, ?_, (nodup_upstreams_iff m s ssl_info).1 h.upstreams⟩
    · by_contra hno
      obtain ⟨hsome, hpanel⟩ := not_or.1 hno
      have htwice : panel_port = some 80 ∨ panel_port = some 443 := by
        by_contra hne
        exact hpanel (not_or.1 hne)
      obtain ⟨port, hport⟩ := two_le_count htwice
      obtain ⟨ip, hip⟩ := List.exists_mem_of_ne_nil _ hsome
      have hone := h.default_server (Address.ofString ip) port
      rw [hdefault, List.count_eq_one_of_mem haddresses (List.mem_map_of_mem hip), Nat.mul_one] at hone
      exact absurd (le_trans hport hone) (by decide)
    · rw [List.nodup_iff_count_le_one]
      intro a
      exact le_trans (Nat.le_add_left _ _) (hhttp a)
    · intro a ha hmem
      obtain ⟨t, -, hat⟩ := List.mem_flatMap.1 ha
      have hv6 : a ∈ m.addresses.filter Address.ipv6 :=
        List.mem_filter.2 ⟨hmem, (List.mem_filter.1 hat).2⟩
      have htwo := Nat.add_le_add (List.one_le_count_iff.2 hv6) (List.one_le_count_iff.2 ha)
      exact absurd (le_trans htwo (hhttp a)) (by decide)
  · intro h
    have haddresses : m.addresses.Nodup := h.interfaces.map ofString_injective
    have hdefaults : ∀ a port, (defaultPorts panel_port).count port * m.addresses.count a ≤ 1 := by
      intro a port
      rcases h.panel with hnil | hpanel
      · rw [Machine.addresses, hnil, List.map_nil, List.count_nil, Nat.mul_zero]
        exact Nat.zero_le 1
      · exact Nat.mul_le_mul (List.nodup_iff_count_le_one.1 (nodup_defaultPorts hpanel) port)
          (List.nodup_iff_count_le_one.1 haddresses a)
    refine ⟨?_, ?_, (nodup_upstreams_iff m s ssl_info).2 h.names⟩
    · intro a port
      have hleast : (m.addresses.filter Address.ipv6).count a ≤ m.addresses.count a :=
        List.filter_sublist.count_le a
      have hdefaulta := le_trans (Nat.mul_le_mul_left ((defaultPorts panel_port).count port) hleast)
        (hdefaults a port)
      have hsites : countListens Listen.ipv6only ((s.sites m).map Site.conf) a port ≤
          ((s.sites m).flatMap Site.ipv6).count a := (count_sites (s.sites m)).1 port
      rw [hoptions]
      by_cases ha : a ∈ (s.sites m).flatMap Site.ipv6
      · -- an address of a domain is none of the default configuration
        have hnone : (m.addresses.filter Address.ipv6).count a = 0 :=
          List.count_eq_zero.2 fun hmem => h.default_conf a ha (List.mem_filter.1 hmem).1
        rw [hnone, Nat.mul_zero, Nat.zero_add]
        exact le_trans hsites (List.nodup_iff_count_le_one.1 h.sites a)
      · rw [List.count_eq_zero.2 ha] at hsites
        rw [Nat.le_zero.1 hsites, Nat.add_zero]
        exact hdefaulta
    · intro a port
      rw [hdefault]
      exact hdefaults a port

def dualStack : Machine :=
  { ifcv4_list := ["10.0.0.5"]
    ifcv6_list := ["2001:db8::5"]
    app_path := fun domain_name file => "/srv/" ++ domain_name ++ "/" ++ file
    app_error := fun _ => none
    isMonitorSecured := false
    dirMonitorCertificates := "/srv/cert/" }

/-- A user of the root plan who has one domain, served at both addresses. -/
def dualStackSite : Store :=
  installed.run [.addUser unlimitedPlanName "ann" .empty,
    .addDomain "ann" "ann.org" (Dict.ofList [("name", .str "ann.org"), ("jx_app_path", .str "index.js"),
      ("sub_ipv4", .str "10.0.0.5"), ("sub_ipv6", .str "2001:db8::5"), ("port_http", .num (.int 10000))])]

/-- The file of the domain and the default one both set options of the same address and port. -/
theorem not_loadable : ¬∀ (m : Machine) (s : Store) (ssl_info : SslInfo) (panel_port : Option Nat),
    Loadable (s.nginxFiles m ssl_info panel_port) := by
  intro h
  have hone := (h dualStack dualStackSite ⟨"server.key", "server.crt"⟩ none).options
    (.ofString "2001:db8::5") 80
  revert hone
  decide +kernel

end JXPanel
