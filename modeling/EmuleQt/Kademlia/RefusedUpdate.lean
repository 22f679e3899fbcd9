import EmuleQt.Kademlia.RoutingZone

namespace EmuleQt.Kademlia

namespace Zone

end Zone

namespace RoutingBin

variable {bin : ContactList} {g : GlobalTracking} {contact existing : Contact} {newIP : UInt32}

end RoutingBin

namespace Zone

variable {publicIP : UInt32} {now : Int} {bin : ContactList} {g : GlobalTracking}
  {existing contact : Contact}

section Add

variable (publicIP : UInt32) (now : Int) (contact : Contact)

end Add

end Zone

end EmuleQt.Kademlia
